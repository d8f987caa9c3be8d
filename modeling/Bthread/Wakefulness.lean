import Bthread.Parking

set_option relaxedAutoImplicit false
set_option autoImplicit false

/-!
# No lost wakeup

A task in a queue is never overlooked: a worker that could look into the queue does so before it
goes to sleep, or a call is about to signal a lot with a worker in it. So when all workers sleep and
no call is under way, there is no task. This rests on two things that the code does not see to: that
a scan of `steal_task` reads the index of every group, and that the word of a lot does not wrap
around.

## Main definitions

* `Bthread.Parking.ReadsAll`, `Bthread.Parking.NoWrap` — these two, as conditions on the steps of a
  run.
* `Bthread.Parking.Alert`, `Bthread.Parking.Op.Announces`, `Bthread.Parking.Served` — somebody will
  look into a queue, or will see to it that somebody does.
* `Bthread.Parking.Seated`, `Bthread.Parking.Attended` — what holds in every reachable state, and
  what holds under the two conditions.

## Main results

* `Bthread.Parking.attended` — every queue with a task in it is served, in every state of a run that
  meets the conditions.
* `Bthread.Parking.noLostWakeup` — when all workers sleep and nobody is about to signal, all queues
  are empty.
-/

namespace Bthread.Parking

open Conc (Config Program)
open Signals (Queue Side Thread)

variable {G : Type*} [DecidableEq G] (lay : Layout G)

/-! ## What the code relies on -/

/-- The worker has loaded a word, or begins with the initial one, and will compare it in
`ParkingLot::wait`. -/
def Pc.Remembers : Pc G → Prop
  | .main _ | .wait | .scan _ _ => True
  | _ => False

/-- A scan of `TaskControl::steal_task` reads the index of every group that is in `_groups` when the
scan begins. -/
def ReadsAll (s : Config (Thread G) (Mem G) (Pc G)) (x : Thread G × Move G) : Prop :=
  ∀ g c e, x = (.worker g, .step e) → s.pc (.worker g) = .getState c →
    ∀ h, s.mem.registered h = true → h ∈ e.order

/-- The word of a lot does not wrap around: no signal brings it back to the value that a worker of
the lot remembers, so that `wait` blocks only when there was no signal in between. -/
def NoWrap (s : Config (Thread G) (Mem G) (Pc G)) (x : Thread G × Move G) : Prop :=
  ∀ num l lots k, (s.pc x.1).op = .signal num (l :: lots) k →
    ∀ g, lay.lot g = l → (s.pc (.worker g)).Remembers →
      s.mem.pendingSignal l + 2 ≠ s.mem.lastPlState g

/-! ## Who serves a queue -/

/-- The worker of `g` looks into `q` before it goes to sleep, or it has left for good. -/
def Alert (m : Mem G) (g : G) (q : Queue G) : Pc G → Prop
  | .idle => False
  | .main _ | .wait => m.lastPlState g ≠ m.pendingSignal (lay.lot g)
  | .asleep => g ∉ m.sleepers (lay.lot g)
  | .scan _ rest => q ∈ rest ∨ m.lastPlState g ≠ m.pendingSignal (lay.lot g)
  | _ => True

/-- The call makes a worker look into `q`. -/
def Op.Announces (m : Mem G) (q : Queue G) : Op G → Prop
  | .count g nosignal => nosignal = false ∧ q = (g, .own)
  | .signal num lots _ => 0 < num ∧ ∃ g, m.registered g = true ∧ lay.lot g ∈ lots
  | .wake num l lots _ =>
    0 < num ∧ (m.sleepers l ≠ [] ∨ ∃ g, m.registered g = true ∧ lay.lot g ∈ lots)
  | _ => False

/-- Somebody will look into `q`, a call is about to see to it, or the tasks in `q` wait for a
flush. -/
def Served (s : Config (Thread G) (Mem G) (Pc G)) (q : Queue G) : Prop :=
  (∃ g, Alert lay s.mem g q (s.pc (.worker g))) ∨ (∃ t, (s.pc t).op.Announces lay s.mem q) ∨
    (q.2 = .remote ∧ 0 < s.mem.numNosignal q)

variable {lay} {m m' : Mem G} {g h : G} {q : Queue G} {op : Op G} {e : Env G} {t : Thread G}
  {p p' : Pc G} {k : Move G} {s : Config (Thread G) (Mem G) (Pc G)}

/-- Every lot is signalled, whichever comes first. -/
theorem mem_lotsFrom (start l : Lot) : l ∈ lotsFrom start := by
  revert start l
  decide

omit [DecidableEq G] in
/-- `signal_task` of a positive number announces to everybody. -/
theorem announces_signalTask (hq : m.registered q.1 = true) (start : Lot) {num : ℕ} (k : After G)
    (hn : 0 < num) : (signalTask start num k).Announces lay m q := by
  rw [signalTask, if_neg (by omega)]
  exact ⟨by omega, q.1, hq, mem_lotsFrom _ _⟩

omit [DecidableEq G] in
/-- A queue is served if a worker is alert. -/
theorem Served.of_alert {m : Mem G} {pc : Thread G → Pc G} (g : G)
    (h : Alert lay m g q (pc (.worker g))) : Served lay ⟨m, pc⟩ q :=
  .inl ⟨g, h⟩

omit [DecidableEq G] in
/-- A queue is served if a call announces it. -/
theorem Served.of_announces {m : Mem G} {pc : Thread G → Pc G} (t : Thread G)
    (h : (pc t).op.Announces lay m q) : Served lay ⟨m, pc⟩ q :=
  .inr (.inl ⟨t, h⟩)

/-- Calls only take workers out of the futex queues. -/
theorem opCode_nodup (hn : ∀ l, (m.sleepers l).Nodup) (l : Lot) :
    ((opCode lay op e m).1.sleepers l).Nodup := by
  have hset : ∀ (l' : Lot) (gs : List G), gs.Sublist (m.sleepers l') →
      ((m.setSleepers l' gs).sleepers l).Nodup := by
    intro l' gs hgs
    rcases eq_or_ne l l' with rfl | hl
    · simpa [Mem.setSleepers] using (hn l).sublist hgs
    · simpa [Mem.setSleepers, hl] using hn l
  unfold opCode
  split
  · exact hn l
  · split <;> exact hn l
  · split
    · split <;> exact hn l
    · exact hn l
  · split <;> exact hn l
  · exact hn l
  · exact hn l
  · exact hn l
  · split
    · exact hn l
    · next hs => exact hset _ _ (by rw [hs]; exact List.eraseIdx_sublist _ _)
  · exact hn l
  · exact hn l
  · exact hset _ _ (List.drop_sublist _ _)

/-- Calls register no group. -/
theorem opCode_registered : (opCode lay op e m).1.registered = m.registered :=
  funext fun h => (opCode_leaves (h := h)).registered

/-- What a call makes of the tasks of a thread: only the worker of a group works on its `_rq`, a
remained callback leaves nothing unsignalled, and a task is pushed for a group that is in
`_groups`. -/
def Fits (m : Mem G) (t : Thread G) (main : Bool) (b : Queue G) (nosignal : Bool) : Prop :=
  (b.2 = .own → t = .worker b.1) ∧ (main = true → nosignal = false) ∧ m.registered b.1 = true

/-- What follows fits. -/
def After.Fits (m : Mem G) (t : Thread G) (main : Bool) : After G → Prop
  | .ret => True
  | .push b _ nosignal => Parking.Fits m t main b nosignal

/-- What is left of the call fits. -/
def Op.Fits (m : Mem G) (t : Thread G) (main : Bool) : Op G → Prop
  | .push b _ nosignal => Parking.Fits m t main b nosignal
  | .count g nosignal => Parking.Fits m t main (g, .own) nosignal
  | .flush _ k | .signal _ _ k | .wake _ _ _ k => k.Fits m t main
  | _ => True

variable {main : Bool} {after : After G}

omit [DecidableEq G] in
/-- What is left after a flush or after `signal_task` fits. -/
theorem After.Fits.resume (h : after.Fits m t main) : after.resume.Fits m t main := by
  cases after with
  | ret => trivial
  | push b tid nosignal => exact h

omit [DecidableEq G] in
/-- `signal_task` fits if what follows does. -/
theorem After.Fits.signalTask {start : Lot} {num : ℕ} (h : after.Fits m t main) :
    (signalTask start num after).Fits m t main := by
  unfold Parking.signalTask
  split
  · exact h.resume
  · exact h

omit [DecidableEq G] in
/-- The rest of `signal_task` fits if what follows does. -/
theorem After.Fits.next {num : ℕ} {lots : List Lot} (h : after.Fits m t main) :
    (Op.next num lots after).Fits m t main := by
  unfold Op.next
  split
  · exact h.resume
  · exact h

/-- What is left of a call keeps fitting. -/
theorem opCode_fits (h : op.Fits m t main) : (opCode lay op e m).2.Fits m t main := by
  have hret : (After.ret : After G).Fits m t main := trivial
  unfold opCode
  split
  · trivial
  · split <;> exact h
  · split
    · split
      · trivial
      · exact hret.signalTask
    · exact h
  · split
    · trivial
    · exact hret.signalTask
  · exact After.Fits.signalTask h
  · exact After.Fits.next h
  · exact h
  · split <;> exact After.Fits.next h
  all_goals trivial

/-- A call that has announced a queue goes on doing so until a worker sees to it: one that is woken,
or one that will find the word of its lot changed, as nobody sleeps there. -/
theorem opCode_announces (hn : ∀ l, (m.sleepers l).Nodup) (hq : m.registered q.1 = true)
    (h : op.Announces lay m q) :
    (opCode lay op e m).2.Announces lay (opCode lay op e m).1 q ∨
      (∃ g l, g ∈ m.sleepers l ∧ g ∉ (opCode lay op e m).1.sleepers l) ∨
      ∃ g num lots k, op = .signal num (lay.lot g :: lots) k ∧ m.registered g = true ∧
        m.sleepers (lay.lot g) = [] := by
  cases op with
  | count g nosignal =>
    obtain ⟨rfl, rfl⟩ := h
    exact .inl (announces_signalTask (by rw [opCode_registered]; exact hq) _ _ (by omega))
  | signal num lots k =>
    obtain ⟨hnum, g, hreg, hg⟩ := h
    cases lots with
    | nil => cases hg
    | cons l lots =>
      by_cases hs : m.sleepers l = []
      · rcases List.mem_cons.mp hg with rfl | hg
        · exact .inr (.inr ⟨g, num, lots, k, rfl, hreg, hs⟩)
        · exact .inl ⟨hnum, .inr ⟨g, hreg, hg⟩⟩
      · exact .inl ⟨hnum, .inl hs⟩
  | wake num l lots k =>
    obtain ⟨hnum, hs⟩ := h
    cases hm : m.sleepers l with
    | nil =>
      obtain ⟨g, hreg, hg⟩ := hs.resolve_left (absurd hm)
      refine .inl ?_
      have hne : ¬(num = 0 ∨ lots = []) := by
        rintro (h | rfl)
        · omega
        · cases hg
      simp only [opCode, hm, Op.next, if_neg hne]
      exact ⟨hnum, g, hreg, hg⟩
    | cons x xs =>
      -- one sleeper is taken out of the futex queue
      refine .inr (.inl ?_)
      let i := e.index % (x :: xs).length
      have hi : i < (x :: xs).length := Nat.mod_lt _ (by simp)
      refine ⟨(x :: xs)[i], l, by rw [hm]; exact List.getElem_mem hi, ?_⟩
      simp only [opCode, hm, Mem.setSleepers, Function.update_self]
      have hd : (x :: xs).Nodup := hm ▸ hn l
      rw [← hd.erase_getElem]
      exact hd.not_mem_erase
  | idle | push b tid nosignal | flush b k | stop lots | wakeAll l lots => exact h.elim

/-- A batch that waits for a flush goes on doing so, or a call announces it. -/
theorem opCode_batch (hreg : m.registered q.1 = true) (hq : q.2 = .remote)
    (h : 0 < m.numNosignal q) :
    0 < (opCode lay op e m).1.numNosignal q ∨
      (opCode lay op e m).2.Announces lay (opCode lay op e m).1 q := by
  unfold opCode
  split
  · exact .inl h
  · split <;> exact .inl h
  · next g tid nosignal =>
    split
    · split
      · rcases eq_or_ne q (g, .remote) with rfl | hne
        · left; simp [Mem.setNum]
        · left; simpa [Mem.setNum, Mem.push, hne] using h
      · exact .inr (announces_signalTask hreg _ _ (by omega))
    · exact .inl h
  · next g nosignal =>
    have hne : q ≠ (g, .own) := fun hg => by rw [hg] at hq; cases hq
    left
    split <;> simpa [Mem.setNum, hne] using h
  · next b k =>
    rcases eq_or_ne q b with rfl | hne
    · exact .inr (announces_signalTask hreg _ _ h)
    · left; simpa [Mem.setNum, hne] using h
  · exact .inl h
  · exact .inl h
  · split <;> exact .inl h
  all_goals exact .inl h

/-- A call that puts a task into an empty queue announces it, counts it for a flush, or is made by a
worker that runs a bthread. -/
theorem opCode_fills (hf : op.Fits m t main) (h₀ : m.rq q = []) (hreg : m.registered q.1 = true)
    (h : (opCode lay op e m).1.rq q ≠ []) :
    (opCode lay op e m).2.Announces lay (opCode lay op e m).1 q ∨
      (q.2 = .remote ∧ 0 < (opCode lay op e m).1.numNosignal q) ∨
      (main = false ∧ ∃ g, t = .worker g) := by
  unfold opCode at h ⊢
  split at h
  · exact absurd h₀ h
  · next g tid nosignal =>
    split at h
    · next hc =>
      rw [if_pos hc]
      have hq : q = (g, .own) := by
        by_contra hne
        simp [Mem.push, hne, h₀] at h
      cases nosignal with
      | false => exact .inl ⟨rfl, hq⟩
      | true =>
        refine .inr (.inr ⟨?_, g, hf.1 rfl⟩)
        cases main with
        | false => rfl
        | true => cases hf.2.1 rfl
    · exact absurd h₀ h
  · next g tid nosignal =>
    split at h
    · next hc =>
      rw [if_pos hc]
      split at h
      · next hs =>
        rw [if_pos hs]
        have hq : q = (g, .remote) := by
          by_contra hne
          simp [Mem.push, Mem.setNum, hne, h₀] at h
        subst hq
        exact .inr (.inl ⟨rfl, by simp [Mem.setNum]⟩)
      · next hs =>
        rw [if_neg hs]
        exact .inl (announces_signalTask hreg _ _ (by omega))
    · exact absurd h₀ h
  · split at h <;> exact absurd h₀ h
  · exact absurd h₀ h
  · exact absurd h₀ h
  · exact absurd h₀ h
  · split at h <;> exact absurd h₀ h
  all_goals exact absurd h₀ h

/-- Calls push tasks for groups that are in `_groups`. -/
theorem opCode_rq (hf : op.Fits m t main) (h : (opCode lay op e m).1.rq q ≠ []) :
    m.rq q ≠ [] ∨ m.registered q.1 = true := by
  by_cases h₀ : m.rq q = []
  · right
    unfold opCode at h
    split at h
    · exact absurd h₀ h
    · next g tid nosignal =>
      split at h
      · have hq : q = (g, .own) := by
          by_contra hne
          simp [Mem.push, hne, h₀] at h
        exact hq ▸ hf.2.2
      · exact absurd h₀ h
    · next g tid nosignal =>
      have hq : ∀ m' : Mem G, m'.rq = (m.push (g, .remote) tid).rq → m'.rq q ≠ [] →
          q = (g, .remote) := by
        intro m' hm hne
        by_contra hqg
        simp [hm, Mem.push, hqg, h₀] at hne
      split at h
      · split at h <;> exact hq _ rfl h ▸ hf.2.2
      · exact absurd h₀ h
    · split at h <;> exact absurd h₀ h
    · exact absurd h₀ h
    · exact absurd h₀ h
    · exact absurd h₀ h
    · split at h <;> exact absurd h₀ h
    all_goals exact absurd h₀ h
  · exact .inl h₀

/-! ## What a worker does -/

omit [DecidableEq G] in
/-- After a task was found a worker is alert. -/
theorem alert_found (c : Caller) : Alert lay m g q (c.found g) := by
  cases c <;> trivial

/-- A worker stays alert as long as the queue is not empty, if its scans read all queues. -/
theorem workerCode_alert (hc : workerCode lay g p k m = some (m', p')) (hq : m'.rq q ≠ [])
    (hreads : ∀ c e, k = .step e → p = .getState c → q.1 ∈ e.order)
    (h : Alert lay m g q p) : Alert lay m' g q p' := by
  unfold workerCode at hc
  split at hc
  · exact h.elim
  · cases hc; trivial
  · have h : m.lastPlState g ≠ m.pendingSignal (lay.lot g) := h
    split at hc
    · cases hc; trivial
    · split at hc
      · next he => exact absurd he.symm h
      · cases hc; trivial
  · split at hc
    · cases hc
    · cases hc; trivial
  · cases hc; trivial
  · split at hc
    · cases hc; trivial
    · cases hc; exact alert_found _
  · split at hc
    · cases hc; trivial
    · cases hc; exact alert_found _
  · next c e =>
    cases hc
    refine .inl (List.mem_flatMap.mpr ⟨q.1, hreads c e rfl rfl, ?_⟩)
    obtain ⟨_, _ | _⟩ := q <;> simp
  · next c e =>
    -- the scan has missed, so the word is not the one remembered
    cases hc
    have hne : m.lastPlState g ≠ m.pendingSignal (lay.lot g) := h.resolve_left List.not_mem_nil
    cases c <;> exact hne
  · next c b rest e =>
    split at hc
    · next hb =>
      cases hc
      rcases h with h | h
      · rcases List.mem_cons.mp h with rfl | h
        · exact absurd hb hq
        · exact .inl h
      · exact .inr h
    · cases hc; exact alert_found _
  · cases hc

/-- A worker with a step behind it is registered. -/
theorem workerCode_registered (hc : workerCode lay g p k m = some (m', p'))
    (h : p ≠ .idle → m.registered g = true) : m'.registered g = true ∧ p' ≠ .idle := by
  have hfound : ∀ c : Caller, (c.found g : Pc G) ≠ .idle := by
    rintro (_ | cb) <;> simp [Caller.found]
  unfold workerCode at hc
  split at hc
  · cases hc; exact ⟨by simp, by simp⟩
  · cases hc; exact ⟨h (by simp), by simp⟩
  · split at hc
    · cases hc; exact ⟨h (by simp), by simp⟩
    · split at hc <;> · cases hc; exact ⟨h (by simp), by simp⟩
  · split at hc
    · cases hc
    · cases hc; exact ⟨h (by simp), by simp⟩
  · cases hc; exact ⟨h (by simp), by simp⟩
  · split at hc
    · cases hc; exact ⟨h (by simp), by simp⟩
    · cases hc; exact ⟨h (by simp), hfound _⟩
  · split at hc
    · cases hc; exact ⟨h (by simp), by simp⟩
    · cases hc; exact ⟨h (by simp), hfound _⟩
  · cases hc; exact ⟨h (by simp), by simp⟩
  · next c _ => cases hc; exact ⟨h (by simp), by cases c <;> simp [Caller.missed]⟩
  · split at hc
    · cases hc; exact ⟨h (by simp), by simp⟩
    · cases hc; exact ⟨h (by simp), hfound _⟩
  · cases hc

/-- A worker is in a futex queue, once, when it sleeps in its lot. -/
theorem workerCode_sleepers (hc : workerCode lay g p k m = some (m', p'))
    (hn : ∀ l, (m.sleepers l).Nodup) (hs : ∀ l, g ∈ m.sleepers l → lay.lot g = l ∧ p = .asleep) :
    (∀ l, (m'.sleepers l).Nodup) ∧ ∀ l, g ∈ m'.sleepers l → lay.lot g = l ∧ p' = .asleep := by
  have hne : p ≠ .asleep → ∀ l, g ∉ m.sleepers l := fun hp l hl => hp (hs l hl).2
  have hsame : p ≠ .asleep → m'.sleepers = m.sleepers →
      (∀ l, (m'.sleepers l).Nodup) ∧ ∀ l, g ∈ m'.sleepers l → lay.lot g = l ∧ p' = .asleep := by
    intro hp h
    rw [h]
    exact ⟨hn, fun l hl => absurd hl (hne hp l)⟩
  unfold workerCode at hc
  split at hc
  · cases hc; exact hsame (by simp) rfl
  · cases hc; exact hsame (by simp) rfl
  · have hne : ∀ l, g ∉ m.sleepers l := hne (by simp)
    split at hc
    · cases hc; exact hsame (by simp) rfl
    · split at hc
      · -- falling asleep
        cases hc
        refine ⟨fun l => ?_, fun l hl => ?_⟩
        · rcases eq_or_ne l (lay.lot g) with rfl | hl
          · simpa [Mem.setSleepers] using ⟨hne _, hn _⟩
          · simpa [Mem.setSleepers, hl] using hn l
        · refine ⟨?_, rfl⟩
          by_contra hne'
          exact hne l (by simpa [Mem.setSleepers, Ne.symm hne'] using hl)
      · cases hc; exact hsame (by simp) rfl
  · split at hc
    · cases hc
    · next hg =>
      cases hc
      refine ⟨hn, fun l hl => ?_⟩
      obtain ⟨rfl, -⟩ := hs l hl
      exact absurd hl hg
  · -- an interrupted wait
    cases hc
    refine ⟨fun l => ?_, fun l hl => ?_⟩
    · rcases eq_or_ne l (lay.lot g) with rfl | hl
      · simpa [Mem.setSleepers] using (hn _).erase g
      · simpa [Mem.setSleepers, hl] using hn l
    · exfalso
      rcases eq_or_ne l (lay.lot g) with rfl | hl'
      · exact (hn _).not_mem_erase (by simpa [Mem.setSleepers] using hl)
      · exact hl' (hs l (by simpa [Mem.setSleepers, hl'] using hl)).1.symm
  · split at hc <;> · cases hc; exact hsame (by simp) rfl
  · split at hc <;> · cases hc; exact hsame (by simp) rfl
  · cases hc; exact hsame (by simp) rfl
  · cases hc; exact hsame (by simp) rfl
  · split at hc <;> · cases hc; exact hsame (by simp) rfl
  · cases hc

/-- Workers take tasks and leave the counters alone. -/
theorem workerCode_rq (hc : workerCode lay g p k m = some (m', p')) :
    (m.rq q = [] → m'.rq q = []) ∧ m'.numNosignal q = m.numNosignal q := by
  have htake : ∀ (b : Queue G) (ts : List Tid), (m.rq b = [] → ts = []) →
      (m.rq q = [] → (m.take b ts).rq q = []) := by
    intro b ts hb hq
    rcases eq_or_ne q b with rfl | hne
    · simpa [Mem.take] using hb hq
    · simpa [Mem.take, hne] using hq
  unfold workerCode at hc
  split at hc
  · cases hc; exact ⟨id, rfl⟩
  · cases hc; exact ⟨id, rfl⟩
  · split at hc
    · cases hc; exact ⟨id, rfl⟩
    · split at hc <;> · cases hc; exact ⟨id, rfl⟩
  · split at hc
    · cases hc
    · cases hc; exact ⟨id, rfl⟩
  · cases hc; exact ⟨id, rfl⟩
  · split at hc
    · cases hc; exact ⟨id, rfl⟩
    · cases hc; exact ⟨htake _ _ fun h => by rw [h]; rfl, rfl⟩
  · split at hc
    · cases hc; exact ⟨id, rfl⟩
    · next hr => cases hc; exact ⟨htake _ _ fun h => by simp [h] at hr, rfl⟩
  · cases hc; exact ⟨id, rfl⟩
  · cases hc; exact ⟨id, rfl⟩
  · split at hc
    · cases hc; exact ⟨id, rfl⟩
    · next hr => cases hc; exact ⟨htake _ _ fun h => by simp [h] at hr, rfl⟩
  · cases hc

/-! ## What holds in every reachable state -/

/-- What is left of the call that a thread is in fits. -/
def Pc.Fits (m : Mem G) (t : Thread G) : Pc G → Prop
  | .task op => op.Fits m t false
  | .main op => op.Fits m t true
  | _ => True

/-- What holds in every reachable state, whatever the scans read and the words do. -/
structure Seated (lay : Layout G) (s : Config (Thread G) (Mem G) (Pc G)) : Prop where
  /-- The calls fit their threads. -/
  fits : ∀ t, (s.pc t).Fits s.mem t
  /-- The workers that have begun are in `_groups`. -/
  registered : ∀ g, s.mem.registered g = true ↔ s.pc (.worker g) ≠ .idle
  /-- A task lies in a queue of a group that is in `_groups`. -/
  tasks : ∀ q, s.mem.rq q ≠ [] → s.mem.registered q.1 = true
  /-- A stopped word was read from a stopped word. -/
  last : ∀ g, State.stopped (s.mem.lastPlState g) = true →
    State.stopped (s.mem.pendingSignal (lay.lot g)) = true
  /-- Nobody is in a futex queue twice. -/
  nodup : ∀ l, (s.mem.sleepers l).Nodup
  /-- Who is in a futex queue sleeps in the lot of its group. -/
  sleeper : ∀ g l, g ∈ s.mem.sleepers l → lay.lot g = l ∧ s.pc (.worker g) = .asleep

omit [DecidableEq G] in
/-- What fits goes on fitting. -/
theorem Op.Fits.mono (hr : ∀ g, m.registered g = true → m'.registered g = true)
    (h : op.Fits m t main) : op.Fits m' t main := by
  have hk : ∀ k : After G, k.Fits m t main → k.Fits m' t main := by
    intro k h
    cases k with
    | ret => trivial
    | push b tid nosignal => exact ⟨h.1, h.2.1, hr _ h.2.2⟩
  cases op with
  | push b tid nosignal => exact ⟨h.1, h.2.1, hr _ h.2.2⟩
  | count g nosignal => exact ⟨h.1, h.2.1, hr _ h.2.2⟩
  | flush b k | signal num lots k | wake num l lots k => exact hk k h
  | idle | stop lots | wakeAll l lots => trivial

omit [DecidableEq G] in
/-- What fits goes on fitting. -/
theorem Pc.Fits.mono (hr : ∀ g, m.registered g = true → m'.registered g = true)
    (h : p.Fits m t) : p.Fits m' t := by
  cases p with
  | task op => exact Op.Fits.mono hr h
  | main op => exact Op.Fits.mono hr h
  | _ => trivial

omit [DecidableEq G] in
/-- A remained callback fits the worker that runs it. -/
theorem callback_fits (hg : m.registered g = true) (cb : Option Tid) (main : Bool) :
    (callback g cb).Fits m (.worker g) main := by
  cases cb with
  | none => trivial
  | some tid => exact ⟨fun _ => rfl, fun _ => rfl, hg⟩

omit [DecidableEq G] in
/-- What a worker does after it has found a task fits. -/
theorem found_fits (hg : m.registered g = true) (c : Caller) : (c.found g).Fits m (.worker g) := by
  cases c with
  | waitTask => trivial
  | sched cb => exact callback_fits hg cb false

/-- A worker that acts outside of calls begins only calls that fit it. -/
theorem workerCode_fits (hc : workerCode lay g p k m = some (m', p'))
    (hg : m'.registered g = true) : p'.Fits m' (.worker g) := by
  unfold workerCode at hc
  split at hc
  · cases hc
    have hf : ∀ (m : Mem G) (op : Op G), op.Fits m (.worker g) true →
        Pc.Fits m (.worker g) (.main op) := fun _ _ => id
    exact hf _ _ (After.Fits.signalTask trivial)
  · cases hc; trivial
  · split at hc
    · cases hc; trivial
    · split at hc <;> · cases hc; trivial
  · split at hc
    · cases hc
    · cases hc; trivial
  · cases hc; trivial
  · split at hc
    · cases hc; trivial
    · cases hc; exact found_fits hg _
  · split at hc
    · cases hc; trivial
    · cases hc; exact found_fits hg _
  · cases hc; trivial
  · next c _ =>
    cases hc
    cases c with
    | waitTask => trivial
    | sched cb => exact callback_fits hg cb true
  · split at hc
    · cases hc; trivial
    · cases hc; exact found_fits hg _
  · cases hc

/-- Groups stay in `_groups`. -/
theorem Stepped.registered (hs : Stepped lay t k m p m' p') (h : m.registered g = true) :
    m'.registered g = true := by
  by_cases ht : t = .worker g
  · cases hs with
    | enter op hp ho hm hp' => rw [hm]; exact h
    | task op e hp hm hp' => rw [hm, opCode_registered]; exact h
    | main op e hp hm hp' => rw [hm, opCode_registered]; exact h
    | back hp hm hp' => rw [hm]; exact h
    | worker g' ht' hc =>
      obtain rfl : g' = g := by rw [ht] at ht'; cases ht'; rfl
      exact (workerCode_registered hc fun _ => h).1
  · rw [(hs.leaves ht).registered]
    exact h

/-- A thread that begins a call that fits. -/
theorem Op.fits_of_enters (ho : op.enters t m = true)
    (hg : ∀ g, t = .worker g → m.registered g = true) : op.Fits m t false := by
  unfold Op.enters at ho
  split at ho
  · next g tid nosignal =>
    have ht : t = .worker g := of_decide_eq_true ho
    exact ⟨fun _ => ht, fun h => (by cases h), hg g ht⟩
  · trivial
  · exact ⟨fun h => (by cases h), fun h => (by cases h), ho⟩
  · trivial
  · trivial
  · cases ho

/-- Calls keep fitting their threads. -/
theorem Stepped.fits (hs : Stepped lay t k m p m' p') (h : p.Fits m t)
    (hg : ∀ g, t = .worker g → p ≠ .idle → m.registered g = true) : p'.Fits m' t := by
  cases hs with
  | enter op hp ho hm hp' =>
    subst hm hp'
    refine Op.fits_of_enters ho fun g ht => ?_
    rcases hp with ⟨-, n, hn⟩ | hp
    · rw [hn] at ht
      cases ht
    · exact hg g ht (by simp [hp])
  | task op e hp hm hp' =>
    subst hp hp' hm
    have h : op.Fits m t false := h
    exact Op.Fits.mono (fun g hg => by rw [opCode_registered]; exact hg) (opCode_fits h)
  | main op e hp hm hp' =>
    subst hp hp' hm
    have h : op.Fits m t true := h
    exact Op.Fits.mono (fun g hg => by rw [opCode_registered]; exact hg) (opCode_fits h)
  | back hp hm hp' => subst hp'; trivial
  | worker g ht hc =>
    subst ht
    exact workerCode_fits hc (workerCode_registered hc (hg g rfl)).1

/-- Steps put a worker into the futex queue of its lot only, and once. -/
theorem Seated.sleepers_step (hi : Seated lay s) (hs : Stepped lay t k s.mem (s.pc t) m' p') :
    (∀ l, (m'.sleepers l).Nodup) ∧ ∀ g l, g ∈ m'.sleepers l →
      lay.lot g = l ∧ Function.update s.pc t p' (.worker g) = .asleep := by
  -- a worker whose thread does not move
  have hother : ∀ g l, t ≠ .worker g → g ∈ m'.sleepers l →
      lay.lot g = l ∧ Function.update s.pc t p' (.worker g) = .asleep := by
    intro g l ht hg
    rw [Function.update_of_ne (Ne.symm ht)]
    exact hi.sleeper g l ((hs.leaves ht).sleepers l hg)
  -- a step that puts nobody to sleep, of a thread that does not sleep
  have hawake : s.pc t ≠ .asleep → (∀ h l, h ∈ m'.sleepers l → h ∈ s.mem.sleepers l) →
      ∀ g l, g ∈ m'.sleepers l →
        lay.lot g = l ∧ Function.update s.pc t p' (.worker g) = .asleep := by
    intro hp hsl g l hg
    by_cases ht : t = .worker g
    · subst ht
      exact absurd (hi.sleeper g l (hsl g l hg)).2 hp
    · exact hother g l ht hg
  cases hs with
  | enter op hp ho hm hp' =>
    subst hm
    exact ⟨hi.nodup, hawake (by rcases hp with ⟨hp, -⟩ | hp <;> simp [hp]) fun _ _ => id⟩
  | task op e hp hm hp' =>
    subst hm
    exact ⟨opCode_nodup hi.nodup, hawake (by simp [hp]) fun _ l => opCode_leaves.sleepers l⟩
  | main op e hp hm hp' =>
    subst hm
    exact ⟨opCode_nodup hi.nodup, hawake (by simp [hp]) fun _ l => opCode_leaves.sleepers l⟩
  | back hp hm hp' =>
    subst hm
    exact ⟨hi.nodup, hawake (by simp [hp]) fun _ _ => id⟩
  | worker g ht hc =>
    subst ht
    obtain ⟨hn, hown⟩ := workerCode_sleepers hc hi.nodup (hi.sleeper g)
    refine ⟨hn, fun h l hh => ?_⟩
    rcases eq_or_ne h g with rfl | hne
    · simpa using hown l hh
    · exact hother h l (fun he => hne (by cases he; rfl)) hh

/-- The registered groups are those whose workers have begun. -/
theorem Seated.registered_step (hi : Seated lay s)
    (hs : Stepped lay t k s.mem (s.pc t) m' p') (g : G) :
    m'.registered g = true ↔ Function.update s.pc t p' (.worker g) ≠ .idle := by
  rcases eq_or_ne t (.worker g) with rfl | ht
  · rw [Function.update_self]
    have hcall : ∀ p'' : Pc G, p' = p'' → p'' ≠ .idle → s.pc (.worker g) ≠ .idle →
        (m'.registered g = true ↔ p' ≠ .idle) := fun p'' hp hne hpc =>
      iff_of_true (hs.registered ((hi.registered g).mpr hpc)) (hp ▸ hne)
    cases hs with
    | enter op hp ho hm hp' =>
      rcases hp with ⟨-, n, hn⟩ | hp
      · cases hn
      · exact hcall _ hp' (by simp) (by simp [hp])
    | task op e hp hm hp' => exact hcall _ hp' (by simp) (by simp [hp])
    | main op e hp hm hp' => exact hcall _ hp' (by simp) (by simp [hp])
    | back hp hm hp' => exact hcall _ hp' (by simp) (by simp [hp])
    | worker g' ht hc =>
      cases ht
      obtain ⟨hreg, hp⟩ := workerCode_registered hc (hi.registered g).mpr
      exact iff_of_true hreg hp
  · rw [Function.update_of_ne (Ne.symm ht), (hs.leaves ht).registered]
    exact hi.registered g

/-- Tasks are pushed only for registered groups. -/
theorem Seated.tasks_step (hi : Seated lay s) (hs : Stepped lay t k s.mem (s.pc t) m' p')
    (hq : m'.rq q ≠ []) : m'.registered q.1 = true := by
  have hkeep : s.mem.rq q ≠ [] → m'.registered q.1 = true := fun h => hs.registered (hi.tasks q h)
  have hf := hi.fits t
  cases hs with
  | enter op hp ho hm hp' => exact hkeep (hm ▸ hq)
  | task op e hp hm hp' =>
    rw [hp] at hf
    have hf : op.Fits s.mem t false := hf
    rcases opCode_rq hf (hm ▸ hq) with h | h
    · exact hkeep h
    · rw [hm, opCode_registered]
      exact h
  | main op e hp hm hp' =>
    rw [hp] at hf
    have hf : op.Fits s.mem t true := hf
    rcases opCode_rq hf (hm ▸ hq) with h | h
    · exact hkeep h
    · rw [hm, opCode_registered]
      exact h
  | back hp hm hp' => exact hkeep (hm ▸ hq)
  | worker g ht hc => exact hkeep fun h => hq ((workerCode_rq hc).1 h)

/-- Every step keeps what holds in every reachable state. -/
theorem Seated.step (hi : Seated lay s) (hc : code lay t (s.pc t) k s.mem = some (m', p')) :
    Seated lay ⟨m', Function.update s.pc t p'⟩ := by
  have hs := stepped hc
  obtain ⟨hnodup, hsleeper⟩ := hi.sleepers_step hs
  refine ⟨fun u => ?_, hi.registered_step hs, fun q hq => hi.tasks_step hs hq, fun g hg => ?_,
    hnodup, hsleeper⟩
  · by_cases hut : u = t
    · subst hut
      simp only [Function.update_self]
      exact hs.fits (hi.fits u) fun g hg hp => (hi.registered g).mpr (hg ▸ hp)
    · simp only [Function.update_of_ne hut]
      exact (hi.fits u).mono fun g hg => hs.registered hg
  · refine (hs.word (lay.lot g)).stopped ?_
    rcases hs.last g with he | he
    · exact hi.last g (he ▸ hg)
    · exact he ▸ hg

/-- What holds in every reachable state. -/
theorem seated (hs : (machine lay).Reachable s) : Seated lay s :=
  Program.invariant
    (fun m hm => by
      subst hm
      exact ⟨fun _ => trivial, fun _ => by simp [Mem.initial], fun _ h => absurd rfl h,
        fun _ h => absurd h (by simp [Mem.initial, State.stopped]),
        fun _ => List.nodup_nil, fun _ _ h => (by cases h)⟩)
    (fun _ _ _ _ _ _ hi _ hc => hi.step hc) hs

/-! ## Every queue is served -/

/-- A word that differs from the one remembered goes on doing so. -/
theorem Seated.ne_word (hi : Seated lay s) (hs : Stepped lay t k s.mem (s.pc t) m' p')
    (hnw : NoWrap lay s (t, k)) (hr : (s.pc (.worker g)).Remembers)
    (h : s.mem.lastPlState g ≠ s.mem.pendingSignal (lay.lot g)) :
    s.mem.lastPlState g ≠ m'.pendingSignal (lay.lot g) := by
  cases hs.word (lay.lot g) with
  | same he => rw [he]; exact h
  | stop he => rw [he]; exact State.or_one_ne (hi.last g) h
  | signal num lots c hop he => rw [he]; exact (hnw num _ lots c hop g rfl hr).symm

/-- A step of a worker that sleeps, or that was woken, leads out of `ParkingLot::wait`. -/
theorem Stepped.of_asleep (hs : Stepped lay t k m .asleep m' p') : p' = .popRemote .waitTask := by
  cases hs with
  | enter op hp ho hm hp' => rcases hp with ⟨hp, -⟩ | hp <;> cases hp
  | task op e hp hm hp' => cases hp
  | main op e hp hm hp' => cases hp
  | back hp hm hp' => cases hp
  | worker g ht hc =>
    cases k with
    | step e =>
      simp only [workerCode] at hc
      split at hc
      · cases hc
      · cases hc; rfl
    | interrupt => cases hc; rfl
    | call op | sched cb => cases hc

/-- The worker that has left a futex queue is alert. -/
theorem Seated.alert_of_woken (hi : Seated lay s) (hs : Stepped lay t k s.mem (s.pc t) m' p')
    {l : Lot} (hg : g ∈ s.mem.sleepers l) (hg' : g ∉ m'.sleepers l) :
    Alert lay m' g q (Function.update s.pc t p' (.worker g)) := by
  obtain ⟨rfl, hp⟩ := hi.sleeper g l hg
  rcases eq_or_ne t (.worker g) with rfl | ht
  · rw [hp] at hs
    rw [Function.update_self, hs.of_asleep]
    trivial
  · rw [Function.update_of_ne (Ne.symm ht), hp]
    exact hg'

/-- Who was alert before a step is alert after it. -/
theorem Seated.alert_step (hi : Seated lay s) (hs : Stepped lay t k s.mem (s.pc t) m' p')
    (hr : ReadsAll s (t, k)) (hnw : NoWrap lay s (t, k)) (hq : m'.rq q ≠ [])
    (hreg : s.mem.registered q.1 = true) (ha : Alert lay s.mem g q (s.pc (.worker g))) :
    Alert lay m' g q (Function.update s.pc t p' (.worker g)) := by
  have hne := hi.ne_word (g := g) hs hnw
  rcases eq_or_ne t (.worker g) with rfl | ht
  · rw [Function.update_self]
    cases hs with
    | enter op hp ho hm hp' => subst hp'; trivial
    | task op e hp hm hp' => subst hp'; trivial
    | main op e hp hm hp' =>
      rw [hp] at ha hne
      subst hp'
      have hlast : m'.lastPlState g = s.mem.lastPlState g := by rw [hm]; exact opCode_leaves.last
      show m'.lastPlState g ≠ m'.pendingSignal (lay.lot g)
      rw [hlast]
      exact hne trivial ha
    | back hp hm hp' =>
      subst hm hp'
      rw [hp] at ha
      exact ha
    | worker h ht hc =>
      cases ht
      refine workerCode_alert hc hq (fun c e hk hp => ?_) ha
      subst hk
      exact hr g c e rfl hp q.1 hreg
  · rw [Function.update_of_ne (Ne.symm ht)]
    have hl := hs.leaves ht
    generalize s.pc (.worker g) = p at ha hne
    cases p with
    | idle => exact ha
    | main op | wait =>
      show m'.lastPlState g ≠ m'.pendingSignal (lay.lot g)
      rw [hl.last]
      exact hne trivial ha
    | asleep => exact fun hs => ha (hl.sleepers _ hs)
    | scan c rest =>
      refine Or.imp_right (fun h => ?_) ha
      rw [hl.last]
      exact hne trivial h
    | task _ | popLocal _ | popRemote _ | getState _ | exited => trivial

/-- One access of the call that a thread is in. -/
structure Called (lay : Layout G) (e : Env G) (m : Mem G) (p : Pc G) (m' : Mem G) (p' : Pc G) :
    Prop where
  mem : m' = (opCode lay p.op e m).1
  op : p'.op = (opCode lay p.op e m).2
  pc : p = .task p.op ∧ p' = .task p'.op ∨ p = .main p.op ∧ p' = .main p'.op

/-- A signal to a lot in which nobody sleeps makes the workers of the lot alert. -/
theorem Seated.alert_of_signal (hi : Seated lay s) (hs : Stepped lay t k s.mem (s.pc t) m' p')
    (hcall : Called lay e s.mem (s.pc t) m' p') (hnw : NoWrap lay s (t, k)) {num : ℕ}
    {lots : List Lot} {after : After G}
    (hop : (s.pc t).op = .signal num (lay.lot g :: lots) after)
    (hreg : s.mem.registered g = true) (hsleep : s.mem.sleepers (lay.lot g) = []) :
    Alert lay m' g q (Function.update s.pc t p' (.worker g)) := by
  have hw : m'.pendingSignal (lay.lot g) = s.mem.pendingSignal (lay.lot g) + 2 := by
    rw [hcall.mem, hop]
    simp [opCode, Mem.setWord]
  have hlast : m'.lastPlState g = s.mem.lastPlState g := by
    rw [hcall.mem]
    exact opCode_leaves.last
  have hne : (s.pc (.worker g)).Remembers → m'.lastPlState g ≠ m'.pendingSignal (lay.lot g) := by
    intro hr
    rw [hlast, hw]
    exact (hnw num _ lots after hop g rfl hr).symm
  rcases eq_or_ne t (.worker g) with rfl | ht
  · rw [Function.update_self]
    rcases hcall.pc with ⟨-, hp'⟩ | ⟨hp, hp'⟩
    · rw [hp']
      trivial
    · rw [hp']
      exact hne (by rw [hp]; trivial)
  · rw [Function.update_of_ne (Ne.symm ht)]
    have hidle := (hi.registered g).mp hreg
    generalize s.pc (.worker g) = p at hne hidle
    cases p with
    | idle => exact absurd rfl hidle
    | main op | wait => exact hne trivial
    | asleep =>
      intro hg
      have := (hs.leaves ht).sleepers _ hg
      rw [hsleep] at this
      cases this
    | scan c rest => exact .inr (hne trivial)
    | task _ | popLocal _ | popRemote _ | getState _ | exited => trivial

omit [DecidableEq G] in
/-- What another thread has announced stays announced, unless the last sleeper of a lot leaves the
futex queue. -/
theorem Op.Announces.frame (hr : ∀ g, m.registered g = true → m'.registered g = true)
    (ha : op.Announces lay m q) :
    op.Announces lay m' q ∨ ∃ g l, g ∈ m.sleepers l ∧ g ∉ m'.sleepers l := by
  cases op with
  | wake num l lots k =>
    obtain ⟨hnum, hs | ⟨g, hg, hl⟩⟩ := ha
    · by_cases hs' : m'.sleepers l = []
      · obtain ⟨g, hg⟩ := List.exists_mem_of_ne_nil _ hs
        exact .inr ⟨g, l, hg, by rw [hs']; exact List.not_mem_nil⟩
      · exact .inl ⟨hnum, .inl hs'⟩
    · exact .inl ⟨hnum, .inr ⟨g, hr g hg, hl⟩⟩
  | signal num lots k =>
    obtain ⟨hnum, g, hg, hl⟩ := ha
    exact .inl ⟨hnum, g, hr g hg, hl⟩
  | _ => exact .inl ha

/-- The next access of a call keeps a queue served that the call announces. -/
theorem Seated.announced_step (hi : Seated lay s) (hs : Stepped lay t k s.mem (s.pc t) m' p')
    (hcall : Called lay e s.mem (s.pc t) m' p') (hnw : NoWrap lay s (t, k))
    (hreg : s.mem.registered q.1 = true) (ha : (s.pc t).op.Announces lay s.mem q) :
    Served lay ⟨m', Function.update s.pc t p'⟩ q := by
  rcases opCode_announces hi.nodup hreg ha with ha | ⟨g, l, hg, hg'⟩ |
    ⟨g, num, lots, after, hop, hg, hsleep⟩
  · refine .of_announces t ?_
    rw [Function.update_self, hcall.op, hcall.mem]
    exact ha
  · exact .of_alert g (hi.alert_of_woken hs hg (by rw [hcall.mem]; exact hg'))
  · exact .of_alert g (hi.alert_of_signal hs hcall hnw hop hg hsleep)

/-- A queue with a task in it is served after the next access of a call. -/
theorem Seated.served_of_call (hi : Seated lay s) (hs : Stepped lay t k s.mem (s.pc t) m' p')
    (hcall : Called lay e s.mem (s.pc t) m' p') (hr : ReadsAll s (t, k))
    (hnw : NoWrap lay s (t, k)) (hserved : s.mem.rq q ≠ [] → Served lay s q) (hq : m'.rq q ≠ []) :
    Served lay ⟨m', Function.update s.pc t p'⟩ q := by
  have hreg' : m'.registered q.1 = true := hi.tasks_step hs hq
  have hreg : s.mem.registered q.1 = true := by
    rw [hcall.mem, opCode_registered] at hreg'
    exact hreg'
  have hann : (opCode lay (s.pc t).op e s.mem).2.Announces lay
      (opCode lay (s.pc t).op e s.mem).1 q → Served lay ⟨m', Function.update s.pc t p'⟩ q := by
    intro h
    refine .of_announces t ?_
    rw [Function.update_self, hcall.op, hcall.mem]
    exact h
  by_cases h₀ : s.mem.rq q = []
  · -- the call has just pushed the task
    obtain ⟨main, hf, hmain⟩ : ∃ main, (s.pc t).op.Fits s.mem t main ∧
        (main = false → p' = .task p'.op) := by
      have hf := hi.fits t
      rcases hcall.pc with ⟨hp, hp'⟩ | ⟨hp, -⟩
      · rw [hp] at hf
        exact ⟨false, hf, fun _ => hp'⟩
      · rw [hp] at hf
        exact ⟨true, hf, fun h => (by cases h)⟩
    rcases opCode_fills hf h₀ hreg (by rw [← hcall.mem]; exact hq) with h | ⟨hr, hn⟩ | ⟨rfl, g, rfl⟩
    · exact hann h
    · exact .inr (.inr ⟨hr, by rw [hcall.mem]; exact hn⟩)
    · refine .of_alert g ?_
      rw [Function.update_self, hmain rfl]
      trivial
  · rcases hserved h₀ with ⟨g, hg⟩ | ⟨u, hu⟩ | ⟨hremote, hn⟩
    · exact .of_alert g (hi.alert_step hs hr hnw hq hreg hg)
    · rcases eq_or_ne u t with rfl | hut
      · exact hi.announced_step hs hcall hnw hreg hu
      · rcases hu.frame fun g hg => hs.registered hg with hu | ⟨g, l, hg, hg'⟩
        · refine .of_announces u ?_
          rw [Function.update_of_ne hut]
          exact hu
        · exact .of_alert g (hi.alert_of_woken hs hg hg')
    · rcases opCode_batch hreg hremote hn with h | h
      · exact .inr (.inr ⟨hremote, by rw [hcall.mem]; exact h⟩)
      · exact hann h

/-- A queue with a task in it is served after a step outside of calls. -/
theorem Seated.served_of_idle (hi : Seated lay s) (hs : Stepped lay t k s.mem (s.pc t) m' p')
    (hr : ReadsAll s (t, k)) (hnw : NoWrap lay s (t, k)) (hop : (s.pc t).op = .idle)
    (hrq : s.mem.rq q = [] → m'.rq q = []) (hn : m'.numNosignal q = s.mem.numNosignal q)
    (hserved : s.mem.rq q ≠ [] → Served lay s q) (hq : m'.rq q ≠ []) :
    Served lay ⟨m', Function.update s.pc t p'⟩ q := by
  have h₀ : s.mem.rq q ≠ [] := fun h => hq (hrq h)
  rcases hserved h₀ with ⟨g, hg⟩ | ⟨u, hu⟩ | ⟨hremote, hb⟩
  · exact .of_alert g (hi.alert_step hs hr hnw hq (hi.tasks q h₀) hg)
  · rcases hu.frame fun g hg => hs.registered hg with hu' | ⟨g, l, hg, hg'⟩
    · rcases eq_or_ne u t with rfl | hut
      · rw [hop] at hu
        exact hu.elim
      · refine .of_announces u ?_
        rw [Function.update_of_ne hut]
        exact hu'
    · exact .of_alert g (hi.alert_of_woken hs hg hg')
  · exact .inr (.inr ⟨hremote, by rw [hn]; exact hb⟩)

/-- Every step that meets the two conditions keeps the queues served. -/
theorem Seated.served_step (hi : Seated lay s)
    (hc : code lay t (s.pc t) k s.mem = some (m', p')) (hr : ReadsAll s (t, k))
    (hnw : NoWrap lay s (t, k)) (hserved : s.mem.rq q ≠ [] → Served lay s q) (hq : m'.rq q ≠ []) :
    Served lay ⟨m', Function.update s.pc t p'⟩ q := by
  have hs := stepped hc
  cases stepped hc with
  | enter op hp ho hm hp' =>
    subst hm
    refine hi.served_of_idle hs hr hnw ?_ id rfl hserved hq
    rcases hp with ⟨hp, -⟩ | hp <;> rw [hp] <;> rfl
  | task op e hp hm hp' =>
    refine hi.served_of_call (e := e) hs ⟨?_, ?_, .inl ⟨?_, ?_⟩⟩ hr hnw hserved hq
    all_goals simp [hp, hm, hp', Pc.op]
  | main op e hp hm hp' =>
    refine hi.served_of_call (e := e) hs ⟨?_, ?_, .inr ⟨?_, ?_⟩⟩ hr hnw hserved hq
    all_goals simp [hp, hm, hp', Pc.op]
  | back hp hm hp' =>
    subst hm
    exact hi.served_of_idle hs hr hnw (by rw [hp]; rfl) id rfl hserved hq
  | worker g ht hc' =>
    obtain ⟨h₁, h₂⟩ := workerCode_rq hc'
    exact hi.served_of_idle hs hr hnw (workerCode_op hc') h₁ h₂ hserved hq

/-- **Nobody is overlooked**: in every state of a run in which every scan reads the index of every
group and no word wraps around, a queue with a task in it is served: a worker will look into it
before it goes to sleep (or has left since its lot is stopped), or a call is about to signal a lot
that has a worker in it, or the tasks were pushed with `nosignal` from outside and wait for a flush.

**Proof sketch.** Induction on the run. A push announces its task, and a worker that begins a scan
will read the queue; until it does, it either finds the task or sees that its word is no longer the
one it remembers. A signal meets a sleeper, who will look, or none, and then every worker of the lot
sees the new word. -/
theorem attended (hs : (machine lay).ReachableIf (fun s x => ReadsAll s x ∧ NoWrap lay s x) s)
    (q : Queue G) (hq : s.mem.rq q ≠ []) : Served lay s q := by
  revert q
  refine Program.invariant (P := program lay) (I := fun s => ∀ q, s.mem.rq q ≠ [] → Served lay s q)
    (fun m hm q hq => ?_) ?_ hs
  · subst hm
    exact absurd rfl hq
  · rintro s t k m p hr ih ⟨hreads, hnw⟩ hc q hq
    exact (seated hr.reachable).served_step hc hreads hnw (ih q) hq

/-- **No lost wakeup**: when all workers are blocked in their lots, no thread is inside a push, a
flush or `signal_task`, and no batch waits for a flush, then all queues are empty.

**Proof sketch.** A queue with a task in it is served. But nobody is alert when all sleep, nobody
announces anything outside of calls, and there is no batch. -/
theorem noLostWakeup
    (hs : (machine lay).ReachableIf (fun s x => ReadsAll s x ∧ NoWrap lay s x) s)
    (hw : ∀ g, s.mem.registered g = true →
      s.pc (.worker g) = .asleep ∧ g ∈ s.mem.sleepers (lay.lot g))
    (ho : ∀ t, (s.pc t).op = .idle) (hn : ∀ g, s.mem.numNosignal (g, .remote) = 0)
    (q : Queue G) : s.mem.rq q = [] := by
  by_contra hq
  rcases attended hs q hq with ⟨g, hg⟩ | ⟨t, ht⟩ | ⟨hr, hb⟩
  · by_cases hreg : s.mem.registered g = true
    · obtain ⟨hp, hsleeps⟩ := hw g hreg
      rw [hp] at hg
      exact hg hsleeps
    · -- a worker that has not begun is not alert
      have hp : s.pc (.worker g) = .idle := by
        by_contra hp
        exact hreg (((seated hs.reachable).registered g).mpr hp)
      rw [hp] at hg
      exact hg
  · rw [ho t] at ht
    exact ht.elim
  · obtain ⟨g, side⟩ := q
    subst hr
    rw [hn g] at hb
    cases hb

/-! ## Words that do not overflow -/

/-- A signal does not overflow the word of a lot. -/
def Grows (s : Config (Thread G) (Mem G) (Pc G)) (x : Thread G × Move G) : Prop :=
  ∀ num l lots k, (s.pc x.1).op = .signal num (l :: lots) k →
    (s.mem.pendingSignal l).toNat + 2 < 4294967296

/-- A remembered word is not greater than the word, as long as no word overflows. -/
theorem last_le (hs : (machine lay).ReachableIf Grows s) (g : G) :
    (s.mem.lastPlState g).toNat ≤ (s.mem.pendingSignal (lay.lot g)).toNat := by
  revert g
  refine Program.invariant (P := program lay) (I := fun s => ∀ g, (s.mem.lastPlState g).toNat ≤
    (s.mem.pendingSignal (lay.lot g)).toNat) (fun m hm g => ?_) ?_ hs
  · subst hm
    exact le_rfl
  · rintro s t k m p - ih hg hc g
    have hst := stepped hc
    have h2 : (2 : State).toNat = 2 := rfl
    have hword : (s.mem.pendingSignal (lay.lot g)).toNat ≤ (m.pendingSignal (lay.lot g)).toNat := by
      cases hst.word (lay.lot g) with
      | same he => rw [he]
      | stop he => rw [he, BitVec.toNat_or]; exact Nat.left_le_or
      | signal num lots c hop he =>
        have := hg num _ lots c hop
        rw [he, BitVec.toNat_add, h2]
        omega
    refine le_trans ?_ hword
    rcases hst.last g with he | he
    · show (m.lastPlState g).toNat ≤ _
      rw [he]
      exact ih g
    · show (m.lastPlState g).toNat ≤ _
      rw [he]

/-- Words that do not overflow do not wrap around. -/
theorem noWrap_of_grows (hs : (machine lay).ReachableIf Grows s) {x : Thread G × Move G}
    (hg : Grows s x) : NoWrap lay s x := by
  rintro num l lots k hop g rfl - he
  have hlast := last_le hs g
  have hlt := hg num _ lots k hop
  have h2 : (2 : State).toNat = 2 := rfl
  rw [← he, BitVec.toNat_add, h2] at hlast
  omega

/-- A run in which no word overflows is one in which no word wraps around. -/
theorem reachableIf_of_grows
    (hs : (machine lay).ReachableIf (fun s x => ReadsAll s x ∧ Grows s x) s) :
    (machine lay).ReachableIf (fun s x => ReadsAll s x ∧ NoWrap lay s x) s :=
  hs.weaken fun _ _ hr hc => ⟨hc.1, noWrap_of_grows (hr.mono fun _ _ h => h.2) hc.2⟩

/-! ## A run -/

/-- Two groups, in different lots. -/
def twoGroups : Layout Bool where
  lot g := if g then ⟨1, by decide⟩ else ⟨0, by decide⟩
  capacity _ := 4

/-- The second lot. -/
def secondLot : Lot := ⟨1, by decide⟩

/-- The next access; a signal begins with the second lot, and a scan reads both groups. -/
def go : Move Bool := .step ⟨secondLot, 0, [false, true]⟩

/-- Both workers go to sleep, and a task is pushed from outside for the first group. -/
def sleepAndPush : List (Thread Bool × Move Bool) :=
  List.replicate 19 (.worker false, go) ++ List.replicate 19 (.worker true, go) ++
    List.replicate 9 (.worker false, go) ++
    [(.other 0, .call (.push (false, .remote) 5 false)), (.other 0, go)]

/-- The signal wakes the second worker, which steals the task, runs it and goes to sleep again. -/
def signalAndSteal : List (Thread Bool × Move Bool) :=
  List.replicate 2 (.other 0, go) ++ List.replicate 5 (.worker true, go) ++
    (.worker true, .sched none) :: List.replicate 10 (.worker true, go)

/-- A check for the two conditions. -/
def readsAndGrows (s : Config (Thread Bool) (Mem Bool) (Pc Bool)) (x : Thread Bool × Move Bool) :
    Bool :=
  (match s.pc x.1, x.2 with
    | .getState _, .step e => decide (false ∈ e.order ∧ true ∈ e.order)
    | _, _ => true) &&
  (match (s.pc x.1).op with
    | .signal _ (l :: _) _ => decide ((s.mem.pendingSignal l).toNat + 2 < 4294967296)
    | _ => true)

/-- The check is right. -/
theorem of_readsAndGrows (s : Config (Thread Bool) (Mem Bool) (Pc Bool))
    (x : Thread Bool × Move Bool) (h : readsAndGrows s x = true) : ReadsAll s x ∧ Grows s x := by
  obtain ⟨h₁, h₂⟩ := (Bool.and_eq_true _ _).mp h
  constructor
  · rintro g c e rfl hp b -
    simp only [hp, decide_eq_true_eq] at h₁
    cases b with
    | false => exact h₁.1
    | true => exact h₁.2
  · intro num l lots k hop
    simpa only [hop, decide_eq_true_eq] using h₂

/-- The task that was pushed is served. -/
theorem attended_sleepAndPush : ∃ s : Config (Thread Bool) (Mem Bool) (Pc Bool),
    (machine twoGroups).exec ⟨.initial, fun _ => .idle⟩ sleepAndPush = some s ∧
      (∀ g, s.pc (.worker g) = .asleep) ∧ s.mem.rq (false, .remote) = [5] ∧
      Served twoGroups s (false, .remote) := by
  obtain ⟨s, h, hchecked, hp, hq⟩ : ∃ s,
      (machine twoGroups).exec ⟨.initial, fun _ => .idle⟩ sleepAndPush = some s ∧
      (machine twoGroups).checked readsAndGrows ⟨.initial, fun _ => .idle⟩ sleepAndPush = true ∧
      (∀ g, s.pc (.worker g) = .asleep) ∧ s.mem.rq (false, .remote) = [5] :=
    ⟨_, rfl, rfl, by rintro (_ | _) <;> rfl, rfl⟩
  have hs := reachableIf_of_grows
    (.of_checked readsAndGrows of_readsAndGrows (.of_init ⟨rfl, rfl⟩) h hchecked)
  exact ⟨s, h, hp, hq, attended hs (false, .remote) (by simp [hq])⟩

/-- After it was stolen and run, both workers sleep and there is no task. -/
theorem noLostWakeup_signalAndSteal : ∃ s : Config (Thread Bool) (Mem Bool) (Pc Bool),
    (machine twoGroups).exec ⟨.initial, fun _ => .idle⟩ (sleepAndPush ++ signalAndSteal) = some s ∧
      ∀ q, s.mem.rq q = [] := by
  obtain ⟨s, h, hchecked, hw, ho, hn⟩ : ∃ s,
      (machine twoGroups).exec ⟨.initial, fun _ => .idle⟩ (sleepAndPush ++ signalAndSteal) =
        some s ∧
      (machine twoGroups).checked readsAndGrows ⟨.initial, fun _ => .idle⟩
        (sleepAndPush ++ signalAndSteal) = true ∧
      (∀ g, s.mem.registered g = true →
        s.pc (.worker g) = .asleep ∧ g ∈ s.mem.sleepers (twoGroups.lot g)) ∧
      (∀ t, (s.pc t).op = .idle) ∧ ∀ g, s.mem.numNosignal (g, .remote) = 0 := by
    refine ⟨_, rfl, rfl, ?_, ?_, ?_⟩
    · rintro (_ | _) -
      · exact ⟨rfl, List.mem_cons_self⟩
      · exact ⟨rfl, List.mem_cons_self⟩
    · rintro ((_ | _) | _ | n) <;> rfl
    · rintro (_ | _) <;> rfl
  have hs := reachableIf_of_grows
    (.of_checked readsAndGrows of_readsAndGrows (.of_init ⟨rfl, rfl⟩) h hchecked)
  exact ⟨s, h, noLostWakeup hs hw ho hn⟩

end Bthread.Parking
