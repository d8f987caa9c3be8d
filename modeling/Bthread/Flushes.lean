import Bthread.Signals

set_option relaxedAutoImplicit false
set_option autoImplicit false

/-!
# Conservation of signals

Every push is announced by a call of `signal_task` that some thread has made or is about to make, or
it waits in a batch; and a batch with tasks of a non-worker is flushed before its `bthread_flush`
returns, by this thread or by another.

## Main definitions

* `Bthread.Signals.Covered` — a call of `signal_task` that covers a push is made or claimed.
* `Bthread.Signals.Conserved` — no signal is lost, none is made up.

## Main results

* `Bthread.Signals.made_iff` — the calls of `signal_task` made are the calls counted.
* `Bthread.Signals.trail_balanced` — locks and unlocks come in turn.
* `Bthread.Signals.follows` — where the NOSIGNAL tasks of a thread are.
* `Bthread.Signals.conserved` — signals are conserved.
-/

namespace Bthread.Signals

open Conc (Config Program)

variable {G ι : Type*}

/-! ## The calls of `signal_task` and the mutex -/

section Calls

variable [DecidableEq G] [AddCommGroupWithOne ι] [DecidableEq ι] {capacity : Queue G → ℕ}
  {t u : Thread G} {call : Call G} {m m' : Mem G ι} {p p' : Pc G ι}
  {s : Config (Thread G) (Mem G ι) (Pc G ι)}

/-- What a statement does to the announcements of queue `b`: the thread counts at most the one it
has begun, and it owes or has made what it counts. -/
structure Announces (t : Thread G) (b : Queue G) (m m' : Mem G ι) (p p' : Pc G ι)
    (new : List (Claim G ι)) : Prop where
  taken : ∀ c ∈ new, p.taken = some (b, c)
  claims : (m'.tally b).claims = (m.tally b).claims ++ new
  made : m'.made t b ++ p'.owed b = m.made t b ++ p.owed b ++ new
  others : ∀ u, u ≠ t → m'.made u b = m.made u b

omit [AddCommGroupWithOne ι] [DecidableEq ι] in
/-- A statement that announces nothing. -/
theorem Announces.none {b : Queue G} (ht : (m'.tally b).claims = (m.tally b).claims)
    (hm : m'.made = m.made) (ho : p'.owed b = p.owed b) : Announces t b m m' p p' [] where
  taken c hc := absurd hc List.not_mem_nil
  claims := by simp [ht]
  made := by simp [hm, ho]
  others u _ := by rw [hm]

omit [AddCommGroupWithOne ι] [DecidableEq ι] in
/-- Writing counters without the record of the announcements. -/
theorem setTally_claims {b b' : Queue G} {y : Tally G ι} (hy : y.claims = (m.tally b').claims) :
    ((m.setTally b' y).tally b).claims = (m.tally b).claims := by
  by_cases hb : b = b'
  · subst hb
    simpa [Mem.setTally] using hy
  · simp [Mem.setTally, hb]

/-- A statement that pushes or takes an entry counts it. -/
theorem code_stock (h : code capacity t p call m = some (m', p')) (b : Queue G) :
    (m'.tally b).pushed.length + ((m.rq b).length + m.taken b) =
      (m.tally b).pushed.length + ((m'.rq b).length + m'.taken b) := by
  -- writing the counters
  have hset : ∀ (b' : Queue G) (y : Tally G ι), y.pushed = (m.tally b').pushed →
      ((m.setTally b' y).tally b).pushed = (m.tally b).pushed := by
    intro b' y hy
    by_cases hb : b = b'
    · subst hb
      simpa [Mem.setTally] using hy
    · simp [Mem.setTally, hb]
  cases p with
  | idle =>
    have he := enter_entered h
    rw [he.tally, he.stock b]
  | lock g k =>
    simp only [code] at h
    split at h
    · obtain ⟨rfl, -⟩ := by simpa using h
      rfl
    · cases h
  | push b' tid ns =>
    simp only [code] at h
    split at h <;> obtain ⟨rfl, -⟩ := by simpa using h
    · by_cases hb : b = b'
      · subst hb
        simp [Mem.push]
        omega
      · simp [Mem.push, hb]
    · rfl
  | countNosignal b' n =>
    obtain ⟨rfl, -⟩ := by simpa [code] using h
    rw [hset]
    all_goals rfl
  | clearNosignal b' c f k =>
    obtain ⟨rfl, -⟩ := by simpa [code] using h
    rw [hset]
    all_goals rfl
  | addNsignaled b' c k =>
    obtain ⟨rfl, -⟩ := by simpa [code] using h
    rw [hset]
    all_goals rfl
  | readAdditional b' n | unlock g c k | signalTask b' c k =>
    obtain ⟨rfl, -⟩ := by simpa [code] using h
    rfl
  | readVal b' k | testRemote g =>
    simp only [code] at h
    split at h <;> obtain ⟨rfl, -⟩ := by simpa using h
    · rfl
    · rfl
  | sleep b' tid ns =>
    obtain ⟨g, _ | _⟩ := b' <;> obtain ⟨rfl, -⟩ := by simpa [code] using h
    · rfl
    · rfl

/-- Every statement announces what it counts. -/
theorem code_announces (h : code capacity t p call m = some (m', p')) (b : Queue G) :
    ∃ new, Announces t b m m' p p' new := by
  cases p with
  | idle =>
    have he := enter_entered h
    exact ⟨[], .none (by rw [he.tally]) he.made (he.owed b)⟩
  | lock g k =>
    simp only [code] at h
    split at h
    · obtain ⟨rfl, rfl⟩ := by simpa using h
      exact ⟨[], .none rfl rfl (by cases k <;> rfl)⟩
    · cases h
  | push b' tid ns =>
    simp only [code] at h
    split at h <;> obtain ⟨rfl, rfl⟩ := by simpa using h
    · exact ⟨[], .none (setTally_claims (m := m) rfl) rfl (by split <;> rfl)⟩
    · exact ⟨[], .none rfl rfl rfl⟩
  | countNosignal b' n =>
    obtain ⟨rfl, rfl⟩ := by simpa [code] using h
    exact ⟨[], .none (setTally_claims rfl) rfl (by rw [Pc.leave_owed]; split <;> rfl)⟩
  | readAdditional b' n =>
    obtain ⟨rfl, rfl⟩ := by simpa [code] using h
    exact ⟨[], .none rfl rfl rfl⟩
  | readVal b' k =>
    simp only [code] at h
    split at h <;> obtain ⟨rfl, rfl⟩ := by simpa using h
    · exact ⟨[], .none rfl rfl (by rw [Pc.leave_owed]; split <;> rfl)⟩
    · exact ⟨[], .none rfl rfl rfl⟩
  | clearNosignal b' c f k =>
    obtain ⟨rfl, rfl⟩ := by simpa [code] using h
    exact ⟨[], .none (setTally_claims rfl) rfl rfl⟩
  | addNsignaled b' c k =>
    obtain ⟨rfl, rfl⟩ := by simpa [code] using h
    by_cases hb : b = b'
    · subst hb
      refine ⟨[c], fun d hd => ?_, ?_, ?_, fun u _ => rfl⟩
      · rw [List.mem_singleton.mp hd]
        rfl
      · simp [Mem.setTally]
      · rw [Pc.leave_owed, if_pos rfl]
        simp [Mem.setTally, Pc.owed]
    · refine ⟨[], .none ?_ rfl ?_⟩
      · simp [Mem.setTally, hb]
      · rw [Pc.leave_owed, if_neg hb]
        rfl
  | unlock g c k =>
    obtain ⟨rfl, rfl⟩ := by simpa [code] using h
    refine ⟨[], .none rfl rfl ?_⟩
    rw [Pc.finish_owed]
    cases c with
    | none => split <;> rfl
    | some c => rfl
  | signalTask b' c k =>
    obtain ⟨rfl, rfl⟩ := by simpa [code] using h
    refine ⟨[], fun d hd => absurd hd List.not_mem_nil, by simp [Mem.signalTask], ?_,
      fun u hu => by simp [Mem.signalTask, hu]⟩
    rw [Pc.resume_owed]
    by_cases hb : b = b'
    · subst hb
      simp [Mem.signalTask, Pc.owed]
    · simp [Mem.signalTask, Pc.owed, hb]
  | sleep b' tid ns =>
    obtain ⟨g', _ | _⟩ := b' <;> obtain ⟨rfl, rfl⟩ := by simpa [code] using h
    · exact ⟨[], .none rfl rfl rfl⟩
    · exact ⟨[], .none rfl rfl rfl⟩
  | testRemote g' =>
    simp only [code] at h
    split at h <;> obtain ⟨rfl, rfl⟩ := by simpa using h
    · exact ⟨[], .none rfl rfl rfl⟩
    · exact ⟨[], .none rfl rfl rfl⟩

/-- An announcement that a call goes on with is the one it has begun, or a new one of its own. -/
theorem code_taken (h : code capacity t p call m = some (m', p')) {b : Queue G} {c : Claim G ι}
    (hc : p'.taken = some (b, c)) :
    p.taken = some (b, c) ∨ (c.thread = t ∧ (∀ n ∈ (m.tally b).pending, n ∈ c.covers)) := by
  cases p with
  | idle =>
    obtain rfl | ⟨g, k, rfl⟩ | ⟨g, rfl⟩ | ⟨g, rfl, rfl | ⟨tid, ns, rfl⟩⟩ :=
      (enter_entered h).pc <;> cases hc
  | lock g k =>
    simp only [code] at h
    split at h
    · obtain ⟨rfl, rfl⟩ := by simpa using h
      cases k <;> cases hc
    · cases h
  | push b' tid ns =>
    simp only [code] at h
    split at h <;> obtain ⟨rfl, rfl⟩ := by simpa using h
    · split at hc <;> cases hc
    · cases hc
  | readAdditional b' n =>
    obtain ⟨rfl, rfl⟩ := by simpa [code] using h
    obtain ⟨rfl, rfl⟩ := Prod.mk.inj (Option.some.inj hc)
    exact .inr ⟨rfl, fun n hn => List.mem_append_left _ hn⟩
  | readVal b' k =>
    simp only [code] at h
    split at h <;> obtain ⟨rfl, rfl⟩ := by simpa using h
    · rw [Pc.leave_taken] at hc
      cases hc
    · obtain ⟨rfl, rfl⟩ := Prod.mk.inj (Option.some.inj hc)
      exact .inr ⟨rfl, fun n hn => hn⟩
  | clearNosignal b' c f k =>
    obtain ⟨rfl, rfl⟩ := by simpa [code] using h
    exact .inl hc
  | countNosignal b' n | addNsignaled b' c k =>
    obtain ⟨rfl, rfl⟩ := by simpa [code] using h
    rw [Pc.leave_taken] at hc
    cases hc
  | unlock g c k =>
    obtain ⟨rfl, rfl⟩ := by simpa [code] using h
    rw [Pc.finish_taken] at hc
    cases hc
  | signalTask b' c k =>
    obtain ⟨rfl, rfl⟩ := by simpa [code] using h
    rw [Pc.resume_taken] at hc
    cases hc
  | sleep b' tid ns =>
    obtain ⟨g', _ | _⟩ := b' <;> obtain ⟨rfl, rfl⟩ := by simpa [code] using h
    · cases hc
    · cases hc
  | testRemote g' =>
    simp only [code] at h
    split at h <;> obtain ⟨rfl, rfl⟩ := by simpa using h
    · cases hc
    · cases hc

/-- Every thread has made the calls of `signal_task` that it has counted, but for the one it is
going to make next. -/
theorem made_iff (h : (machine capacity).Reachable s) :
    (∀ t b c, (s.pc t).taken = some (b, c) → c.thread = t) ∧
      ∀ t b, (s.mem.tally b).claims.filter (·.thread = t) = s.mem.made t b ++ (s.pc t).owed b := by
  refine Program.invariant (P := program capacity) (C := fun _ _ => True)
    (I := fun s => (∀ t b c, (s.pc t).taken = some (b, c) → c.thread = t) ∧ ∀ t b,
      (s.mem.tally b).claims.filter (·.thread = t) = s.mem.made t b ++ (s.pc t).owed b) ?_ ?_ h
  · rintro m rfl
    exact ⟨fun t b c hc => (by cases hc), fun t b => rfl⟩
  · rintro s u call m p _ ⟨ht, hi⟩ _ hc
    constructor
    · intro t b c hb
      by_cases hu : t = u
      · subst hu
        obtain h' | h' := code_taken hc (by simpa using hb)
        · exact ht t b c h'
        · exact h'.1
      · exact ht t b c (by simpa [Function.update_of_ne hu] using hb)
    · intro t b
      obtain ⟨new, hn⟩ := code_announces hc b
      have hthread : ∀ c ∈ new, c.thread = u := fun c hc' => ht u b c (hn.taken c hc')
      rw [hn.claims, List.filter_append, hi t b]
      by_cases hu : t = u
      · subst hu
        rw [List.filter_eq_self.mpr (fun c hc' => by simpa using hthread c hc'),
          ← hn.made]
        simp only [Function.update_self]
      · rw [List.filter_eq_nil_iff.mpr fun c hc' => by simpa [hthread c hc'] using Ne.symm hu,
          List.append_nil]
        simp only [Function.update_of_ne hu, hn.others t hu]

/-- Locks and unlocks in turn. -/
def balanced (gs : List G) : List (MutexEvent G) := gs.flatMap fun g => [.lock g, .unlock g]

/-- The lock that a call has to release. -/
def Pc.held (p : Pc G ι) : List (MutexEvent G) :=
  match p.sec with
  | some (g, .remote) => [.lock g]
  | _ => []

omit [DecidableEq G] [AddCommGroupWithOne ι] [DecidableEq ι] in
/-- What a call holds depends on its section. -/
theorem Pc.held_congr (h : ∀ g, p'.sec = some (g, .remote) ↔ p.sec = some (g, .remote)) :
    p'.held = p.held := by
  unfold Pc.held
  split
  case h_1 g hg => rw [(h g).mp hg]
  case h_2 hn =>
    split
    case h_1 g hg => exact absurd ((h g).mpr hg) (hn g)
    case h_2 => rfl

omit [DecidableEq G] [AddCommGroupWithOne ι] [DecidableEq ι] in
/-- After the counters are written the mutex is still held. -/
theorem Pc.leave_held {b : Queue G} {k : Cont} {c : Option (Claim G ι)} (hp : p.sec = some b) :
    (Pc.leave b k c).held = p.held :=
  Pc.held_congr fun g => by rw [hp, Pc.leave_sec_iff]

/-- The effect of a statement on the trail of the call, `x` and `y` being what it holds before and
after. -/
inductive TrailStep : (l l' x y : List (MutexEvent G)) → Prop
  | keep {l x : List (MutexEvent G)} : TrailStep l l x x
  | reset {l x : List (MutexEvent G)} : TrailStep l [] x []
  | lock {l : List (MutexEvent G)} (g : G) : TrailStep l (l ++ [.lock g]) [] [.lock g]
  | unlock {l : List (MutexEvent G)} (g : G) : TrailStep l (l ++ [.unlock g]) [.lock g] []

omit [DecidableEq G] in
/-- Locks and unlocks stay in turn. -/
theorem TrailStep.balanced {l l' x y : List (MutexEvent G)} (h : TrailStep l l' x y)
    (hl : ∃ gs, l = balanced gs ++ x) : ∃ gs, l' = Signals.balanced gs ++ y := by
  obtain ⟨gs, hl⟩ := hl
  cases h with
  | keep => exact ⟨gs, hl⟩
  | reset => exact ⟨[], rfl⟩
  | lock g => exact ⟨gs, by rw [hl, List.append_nil]⟩
  | unlock g => exact ⟨gs ++ [g], by simp [hl, Signals.balanced]⟩

/-- What a statement does to the mutexes is recorded. -/
theorem code_trail (h : code capacity t p call m = some (m', p')) :
    TrailStep (m.trail t) (m'.trail t) p.held p'.held ∧ ∀ u, u ≠ t → m'.trail u = m.trail u := by
  have keep (hm : m'.trail = m.trail) (hp : p'.held = p.held) :
      TrailStep (m.trail t) (m'.trail t) p.held p'.held ∧
        ∀ u, u ≠ t → m'.trail u = m.trail u := by
    rw [hm, hp]
    exact ⟨.keep, fun u _ => rfl⟩
  cases p with
  | idle =>
    have he := enter_entered h
    have hp : p'.held = [] := by
      unfold Pc.held
      split
      case h_1 g hg => exact absurd hg (he.not_sec g)
      case h_2 => rfl
    rw [he.trail, hp]
    refine ⟨?_, fun u hu => by simp [hu]⟩
    simp only [Function.update_self]
    exact .reset
  | lock g k =>
    simp only [code] at h
    split at h
    · obtain ⟨rfl, rfl⟩ := by simpa using h
      refine ⟨?_, fun u hu => by simp [Mem.lock, hu]⟩
      simp only [Mem.lock, Function.update_self]
      cases k <;> exact .lock g
    · cases h
  | push b' tid ns =>
    simp only [code] at h
    split at h <;> obtain ⟨rfl, rfl⟩ := by simpa using h
    · exact keep rfl (by split <;> rfl)
    · exact keep rfl rfl
  | countNosignal b' n | addNsignaled b' c k =>
    obtain ⟨rfl, rfl⟩ := by simpa [code] using h
    exact keep rfl (Pc.leave_held rfl)
  | readAdditional b' n | clearNosignal b' c f k =>
    obtain ⟨rfl, rfl⟩ := by simpa [code] using h
    exact keep rfl rfl
  | readVal b' k =>
    simp only [code] at h
    split at h <;> obtain ⟨rfl, rfl⟩ := by simpa using h
    · exact keep rfl (Pc.leave_held rfl)
    · exact keep rfl rfl
  | unlock g c k =>
    obtain ⟨rfl, rfl⟩ := by simpa [code] using h
    refine ⟨?_, fun u hu => by simp [Mem.unlock, hu]⟩
    simp only [Mem.unlock, Function.update_self]
    rw [show (Pc.finish (g, .remote) k c).held = [] by rw [Pc.held, Pc.finish_sec]]
    exact .unlock g
  | signalTask b' c k =>
    obtain ⟨rfl, rfl⟩ := by simpa [code] using h
    exact keep rfl (by rw [Pc.held, Pc.resume_sec]; rfl)
  | sleep b' tid ns =>
    obtain ⟨g', _ | _⟩ := b' <;> obtain ⟨rfl, rfl⟩ := by simpa [code] using h
    · exact keep rfl rfl
    · exact keep rfl rfl
  | testRemote g' =>
    simp only [code] at h
    split at h <;> obtain ⟨rfl, rfl⟩ := by simpa using h
    · exact keep rfl rfl
    · exact keep rfl rfl

/-- A call has released every mutex it has locked, once, but for the one it holds. -/
theorem trail_balanced (h : (machine capacity).Reachable s) (t : Thread G) :
    ∃ gs, s.mem.trail t = balanced gs ++ (s.pc t).held := by
  refine Program.invariant (P := program capacity) (C := fun _ _ => True)
    (I := fun s => ∀ t, ∃ gs, s.mem.trail t = balanced gs ++ (s.pc t).held) ?_ ?_ h t
  · rintro m rfl t
    exact ⟨[], rfl⟩
  · rintro s u call m p _ hi _ hc t
    obtain ⟨hs, ho⟩ := code_trail hc
    by_cases hu : t = u
    · subst hu
      simpa using hs.balanced (hi t)
    · simpa [Function.update_of_ne hu, ho t hu] using hi t

end Calls

/-! ## NOSIGNAL tasks -/

section Flush

variable [DecidableEq G] [AddCommGroupWithOne ι]
  {t u : Thread G} {call : Call G} {m m' : Mem G ι} {p p' : Pc G ι} {b : Queue G} {n : ℕ}
  {s : Config (Thread G) (Mem G ι) (Pc G ι)}

/-- A call of `signal_task` that covers push `n` is made or claimed. -/
def Covered (s : Config (Thread G) (Mem G ι) (Pc G ι)) (b : Queue G) (n : ℕ) : Prop :=
  (∃ c ∈ (s.mem.tally b).claims, n ∈ c.covers) ∨
    ∃ t c, (s.pc t).taken = some (b, c) ∧ n ∈ c.covers

/-- A call that is going to announce the batch of `g`. -/
def Pc.Flushes (g : G) : Pc G ι → Prop
  | .testRemote g' | .lock g' .ret => g' = g
  | .readVal b .ret => b = (g, .remote)
  | _ => False

/-- Where a call of `bthread_flush` or of `start_from_non_worker` with `BTHREAD_NOSIGNAL` is. -/
structure Serves (t : Thread G) (p : Pc G ι) (m : Mem G ι) : Prop where
  start : ∀ chosen tid, m.call t = some (.startFromNonWorker chosen tid true) →
    (∀ b, p.queue = some b → b.2 = .remote ∧ m.tlsNosignal t = some b.1) ∧ p.arg ≠ some false
  flush : ∀ i, t = .other i → m.call t = some .bthreadFlush → m.tlsNosignal t = none

/-- The tasks that `t` created with `BTHREAD_NOSIGNAL` are covered, or in the batch of the group
that a flush of `t` is about. -/
def Follows (s : Config (Thread G) (Mem G ι) (Pc G ι)) (t : Thread G) : Prop :=
  ∀ g n, (g, n) ∈ s.mem.created t → Covered s (g, .remote) n ∨
    (n ∈ (s.mem.tally (g, .remote)).pending ∧
      (s.mem.tlsNosignal t = some g ∨ (s.pc t).Flushes g)) ∨
    (s.pc t = .countNosignal (g, .remote) n ∧ s.mem.tlsNosignal t = some g)

omit [AddCommGroupWithOne ι] in
/-- What the beginning of a call does to `tls_task_group_nosignal`. -/
theorem enter_serves (h : enter t call m = some (m', p')) (hc : m.call t = some call) :
    Serves t p' m' ∧ (∀ u, u ≠ t → m'.tlsNosignal u = m.tlsNosignal u) ∧
      ∀ g, m.tlsNosignal t = some g → m'.tlsNosignal t = some g ∨ p'.Flushes g := by
  have other (hm : m' = m) (h₁ : ∀ chosen tid, call ≠ .startFromNonWorker chosen tid true)
      (h₂ : call = .bthreadFlush → ∀ i, t = .other i → m.tlsNosignal t = none) :
      Serves t p' m' ∧ (∀ u, u ≠ t → m'.tlsNosignal u = m.tlsNosignal u) ∧
        ∀ g, m.tlsNosignal t = some g → m'.tlsNosignal t = some g ∨ p'.Flushes g := by
    subst hm
    refine ⟨⟨fun chosen tid he => ?_, fun i ht he => ?_⟩, fun _ _ => rfl, fun _ hg => .inl hg⟩
    · exact absurd (Option.some.inj (hc.symm.trans he)) (h₁ chosen tid)
    · exact h₂ (Option.some.inj (hc.symm.trans he)) i ht
  cases call with
  | readyToRun | flushNosignalTasks =>
    cases t with
    | worker g =>
      obtain ⟨hm, -⟩ := by simpa [enter] using h
      exact other hm.symm (by simp) (by simp)
    | other i => cases h
  | readyToRunRemote | flushNosignalTasksRemote =>
    obtain ⟨hm, -⟩ := by simpa [enter] using h
    exact other hm.symm (by simp) (by simp)
  | take b i =>
    simp only [enter] at h
    split at h
    · obtain ⟨rfl, -⟩ := by simpa using h
      refine ⟨⟨fun chosen tid he => ?_, fun i ht he => ?_⟩, fun _ _ => rfl, fun _ hg => .inl hg⟩
      · exact absurd (hc.symm.trans he) (by simp)
      · exact absurd (hc.symm.trans he) (by simp)
    · cases h
  | startFromNonWorker chosen tid ns =>
    cases t with
    | worker g => cases h
    | other i =>
      cases ns with
      | false =>
        obtain ⟨hm, -⟩ := by simpa [enter] using h
        exact other hm.symm (by simp) (by simp)
      | true =>
        obtain ⟨rfl, rfl⟩ := by simpa [enter] using h
        refine ⟨⟨fun chosen tid _ => ⟨fun b hb => ?_, by simp [Pc.arg, Cont.arg]⟩,
          fun i ht he => ?_⟩, fun u hu => by simp [hu], fun g hg => .inl (by simp [hg])⟩
        · obtain rfl := Option.some.inj hb
          simp
        · exact absurd (hc.symm.trans he) (by simp)
  | bthreadFlush =>
    cases t with
    | worker g =>
      obtain ⟨hm, -⟩ := by simpa [enter] using h
      exact other hm.symm (by simp) (by simp)
    | other i =>
      simp only [enter] at h
      split at h
      case h_1 hn =>
        obtain ⟨hm, -⟩ := by simpa using h
        exact other hm.symm (by simp) fun _ _ _ => hn
      case h_2 g hg =>
        obtain ⟨rfl, rfl⟩ := by simpa using h
        refine ⟨⟨fun chosen tid he => ?_, fun i ht _ => by simp⟩, fun u hu => by simp [hu],
          fun g' hg' => .inr ?_⟩
        · exact absurd (hc.symm.trans he) (by simp)
        · exact Option.some.inj (hg.symm.trans hg')

variable [DecidableEq ι] {capacity : Queue G → ℕ}

/-- The calls of other threads do not matter. -/
theorem code_others (h : code capacity t p call m = some (m', p')) (hu : u ≠ t) :
    m'.call u = m.call u ∧ m'.tlsNosignal u = m.tlsNosignal u := by
  by_cases hp : p = .idle
  · subst hp
    have he := enter_entered h
    have hs := (enter_serves h (by simp)).2.1 u hu
    exact ⟨by simp [he.call, hu], hs⟩
  · obtain ⟨-, -, hc, ht⟩ := code_follow h hp
    exact ⟨congrFun hc u, congrFun ht u⟩

/-- Every statement keeps where the call is. -/
theorem code_serves (h : code capacity t p call m = some (m', p')) (hs : Serves t p m) :
    Serves t p' m' := by
  by_cases hp : p = .idle
  · subst hp
    exact (enter_serves h (by simp)).1
  · obtain ⟨hq, ha, hc, ht⟩ := code_follow h hp
    refine ⟨fun chosen tid he => ?_, fun i hi he => ?_⟩
    · rw [hc] at he
      obtain ⟨h₁, h₂⟩ := hs.start chosen tid he
      rw [ht]
      exact ⟨fun b hb => h₁ b (hq b hb), fun hn => h₂ (ha false hn)⟩
    · rw [hc] at he
      rw [ht]
      exact hs.flush i hi he

/-- Where the calls are in every reachable state. -/
theorem serves (h : (machine capacity).Reachable s) (t : Thread G) : Serves t (s.pc t) s.mem := by
  refine Program.invariant (P := program capacity) (C := fun _ _ => True)
    (I := fun s => ∀ t, Serves t (s.pc t) s.mem) ?_ ?_ h t
  · rintro m rfl t
    exact ⟨fun _ _ he => (by cases he), fun _ _ he => (by cases he)⟩
  · rintro s u call m p _ hi _ hc t
    by_cases hu : t = u
    · subst hu
      simpa using code_serves hc (hi t)
    · obtain ⟨h₁, h₂⟩ := code_others hc hu
      simp only [Function.update_of_ne hu]
      refine ⟨fun chosen tid he => ?_, fun i ht he => ?_⟩
      · rw [h₂]
        exact (hi t).start chosen tid (h₁ ▸ he)
      · rw [h₂]
        exact (hi t).flush i ht (h₁ ▸ he)

/-- An announcement that a call has begun goes on until it is counted. -/
theorem code_count (h : code capacity t p call m = some (m', p')) {c : Claim G ι}
    (hp : p.taken = some (b, c)) : p'.taken = some (b, c) ∨ c ∈ (m'.tally b).claims := by
  cases p with
  | clearNosignal b' c' f k =>
    obtain ⟨rfl, rfl⟩ := by simpa [code] using h
    exact .inl hp
  | addNsignaled b' c' k =>
    obtain ⟨rfl, rfl⟩ := by simpa [code] using h
    obtain ⟨rfl, rfl⟩ := Prod.mk.inj (Option.some.inj hp)
    exact .inr (by simp [Mem.setTally])
  | _ => cases hp

/-- A push leaves the batch when its announcement has begun. -/
theorem code_pending (h : code capacity t p call m = some (m', p')) (hk : p.Keeps b m)
    (hn : n ∈ (m.tally b).pending) :
    n ∈ (m'.tally b).pending ∨ ∃ c, p'.taken = some (b, c) ∧ n ∈ c.covers := by
  by_cases hs : p.sec = some b
  swap
  · rw [code_tally h hs]
    exact .inl hn
  rw [Pc.Keeps, if_pos hs] at hk
  cases p with
  | push b' tid ns =>
    obtain rfl := Option.some.inj hs
    simp only [code] at h
    split at h <;> obtain ⟨rfl, -⟩ := by simpa using h
    · exact .inl (by simpa [Mem.push] using hn)
    · exact .inl hn
  | countNosignal b' k =>
    obtain rfl := Option.some.inj hs
    obtain ⟨rfl, -⟩ := by simpa [code] using h
    exact .inl (by simp [Mem.setTally, hn])
  | readAdditional b' k =>
    obtain ⟨rfl, -⟩ := by simpa [code] using h
    exact .inl hn
  | readVal b' k =>
    simp only [code] at h
    split at h <;> obtain ⟨rfl, -⟩ := by simpa using h
    · exact .inl hn
    · exact .inl hn
  | clearNosignal b' c f k =>
    obtain rfl := Option.some.inj hs
    obtain ⟨rfl, rfl⟩ := by simpa [code] using h
    exact .inr ⟨c, rfl, by rw [hk.2.1]; exact List.mem_append_left _ hn⟩
  | addNsignaled b' c k =>
    obtain rfl := Option.some.inj hs
    rw [hk.2.1] at hn
    cases hn
  | unlock g c k =>
    obtain ⟨rfl, -⟩ := by simpa [code] using h
    exact .inl hn
  | idle | lock | signalTask | sleep | testRemote => cases hs

/-- A flush that finds the batch nonempty announces it. -/
theorem code_flushes (h : code capacity t p call m = some (m', p')) {g : G}
    (hf : p.Flushes g) (h₀ : (m.tally (g, .remote)).numNosignal ≠ 0)
    (hn : n ∈ (m.tally (g, .remote)).pending) :
    p'.Flushes g ∨ ∃ c, p'.taken = some ((g, .remote), c) ∧ n ∈ c.covers := by
  cases p with
  | testRemote g' =>
    obtain rfl : g' = g := hf
    obtain ⟨-, rfl⟩ := by simpa [code, h₀] using h
    exact .inl rfl
  | lock g' k =>
    cases k with
    | ret =>
      obtain rfl : g' = g := hf
      simp only [code] at h
      split at h
      · obtain ⟨-, rfl⟩ := by simpa using h
        exact .inl rfl
      · cases h
    | push => exact hf.elim
  | readVal b' k =>
    cases k with
    | ret =>
      obtain rfl : b' = (g, .remote) := hf
      obtain ⟨-, rfl⟩ := by simpa [code, h₀] using h
      exact .inr ⟨_, rfl, hn⟩
    | push => exact hf.elim
  | _ => exact hf.elim

omit [AddCommGroupWithOne ι] [DecidableEq ι] in
/-- A push records a task only in a call of `start_from_non_worker` with `BTHREAD_NOSIGNAL`. -/
theorem Mem.push_created (m : Mem G ι) (t : Thread G) (b : Queue G) (tid : Tid) :
    (m.push t b tid).created = m.created ∨
      ((∃ chosen tid', m.call t = some (.startFromNonWorker chosen tid' true)) ∧
        (m.push t b tid).created =
          Function.update m.created t (m.created t ++ [(b.1, m.serial)])) := by
  unfold Mem.push
  dsimp only
  split
  case h_1 chosen tid' hc => exact .inr ⟨⟨chosen, tid', hc⟩, rfl⟩
  case h_2 => exact .inl rfl

/-- A task is recorded as created when it is pushed. -/
theorem code_created (h : code capacity t p call m = some (m', p')) (hs : Serves t p m) :
    (∀ g n, (g, n) ∈ m'.created t → (g, n) ∈ m.created t ∨
      (p' = .countNosignal (g, .remote) n ∧ m'.tlsNosignal t = some g)) ∧
      ∀ u, u ≠ t → m'.created u = m.created u := by
  have same (hm : m'.created = m.created) : (∀ g n, (g, n) ∈ m'.created t →
      (g, n) ∈ m.created t ∨ (p' = .countNosignal (g, .remote) n ∧ m'.tlsNosignal t = some g)) ∧
        ∀ u, u ≠ t → m'.created u = m.created u := by
    rw [hm]
    exact ⟨fun g n hg => .inl hg, fun _ _ => rfl⟩
  cases p with
  | idle => exact same (enter_entered h).created
  | push b tid ns =>
    simp only [code] at h
    split at h <;> obtain ⟨rfl, rfl⟩ := by simpa using h
    · obtain hm | ⟨⟨chosen, tid', hcall⟩, hm⟩ := Mem.push_created m t b tid
      · exact same hm
      · obtain ⟨hq, ha⟩ := hs.start chosen tid' hcall
        obtain ⟨hb, ht⟩ := hq b rfl
        obtain rfl : ns = true := by simpa [Pc.arg] using ha
        refine ⟨fun g n hg => ?_, fun u hu => by simp [hm, hu]⟩
        obtain hg | ⟨rfl, rfl⟩ := by simpa [hm] using hg
        · exact .inl hg
        · obtain ⟨g, σ⟩ := b
          obtain rfl : σ = .remote := hb
          exact .inr ⟨rfl, ht⟩
    · exact same rfl
  | lock g k =>
    simp only [code] at h
    split at h
    · obtain ⟨rfl, -⟩ := by simpa using h
      exact same rfl
    · cases h
  | readVal b k | testRemote g =>
    simp only [code] at h
    split at h <;> obtain ⟨rfl, -⟩ := by simpa using h
    · exact same rfl
    · exact same rfl
  | sleep b tid ns =>
    obtain ⟨g, _ | _⟩ := b <;> obtain ⟨rfl, -⟩ := by simpa [code] using h
    · exact same rfl
    · exact same rfl
  | countNosignal | readAdditional | clearNosignal | addNsignaled | unlock | signalTask =>
    obtain ⟨rfl, -⟩ := by simpa [code] using h
    exact same rfl

/-- What is covered stays covered. -/
theorem Covered.step (h : Covered s b n)
    (hc : code capacity u (s.pc u) call s.mem = some (m', p')) :
    Covered ⟨m', Function.update s.pc u p'⟩ b n := by
  obtain ⟨c, hc', hn⟩ | ⟨t, c, ht, hn⟩ := h
  · obtain ⟨new, ha⟩ := code_announces hc b
    exact .inl ⟨c, by simp [ha.claims, hc'], hn⟩
  · by_cases hu : t = u
    · subst hu
      obtain h' | h' := code_count hc ht
      · exact .inr ⟨t, c, by simpa using h', hn⟩
      · exact .inl ⟨c, h', hn⟩
    · exact .inr ⟨t, c, by simpa [Function.update_of_ne hu] using ht, hn⟩

/-- What is pending stays pending or gets covered. -/
theorem pending_step (hr : (machine capacity).Reachable s)
    (h : n ∈ (s.mem.tally b).pending)
    (hc : code capacity u (s.pc u) call s.mem = some (m', p')) :
    n ∈ (m'.tally b).pending ∨ Covered ⟨m', Function.update s.pc u p'⟩ b n := by
  by_cases hb : (s.pc u).sec = some b
  · obtain h' | ⟨c, hp, hn⟩ := code_pending hc ((guarded hr).inside (exclusive hr) hb) h
    · exact .inl h'
    · exact .inr (.inr ⟨u, c, by simpa using hp, hn⟩)
  · rw [code_tally hc hb]
    exact .inl h

/-- The counter of a batch is its size, in and out of the sections. -/
theorem numNosignal_eq (h : (machine capacity).Reachable s) (b : Queue G) :
    (s.mem.tally b).numNosignal = (s.mem.tally b).pending.length := by
  obtain ⟨hand, hs, -⟩ := sound h b
  exact hs.num

/-- The tasks that `t` created stay covered or in the batch of its group. -/
theorem Follows.step [CharZero ι] (hr : (machine capacity).Reachable s) (h : Follows s t)
    (hc : code capacity u (s.pc u) call s.mem = some (m', p')) :
    Follows ⟨m', Function.update s.pc u p'⟩ t := by
  intro g n hg
  obtain ⟨hnew, hold⟩ := code_created hc (serves hr u)
  by_cases hu : t = u
  · subst hu
    obtain hg | ⟨hp, ht⟩ := hnew g n hg
    swap
    · exact .inr (.inr ⟨by simpa using hp, ht⟩)
    obtain hcov | ⟨hn, hf⟩ | ⟨hp, ht⟩ := h g n hg
    · exact .inl (hcov.step hc)
    · obtain hn' | hcov := pending_step hr hn hc
      swap
      · exact .inl hcov
      obtain ht | hf := hf
      · by_cases hi : s.pc t = .idle
        · rw [hi] at hc
          have he := (enter_serves hc (by simp)).2.2 g ht
          exact .inr (.inl ⟨hn', by simpa using he⟩)
        · have ht' := (code_follow hc hi).2.2.2
          exact .inr (.inl ⟨hn', .inl (by simpa [ht'] using ht)⟩)
      · have h₀ : (s.mem.tally (g, .remote)).numNosignal ≠ 0 := by
          rw [numNosignal_eq hr]
          simpa using List.ne_nil_of_mem hn
        obtain hf' | ⟨c, hp, hn⟩ := code_flushes hc hf h₀ hn
        · exact .inr (.inl ⟨hn', .inr (by simpa using hf')⟩)
        · exact .inl (.inr ⟨t, c, by simpa using hp, hn⟩)
    · -- the push is counted
      have ht' := (code_follow hc (by simp [hp])).2.2.2
      rw [hp] at hc
      obtain ⟨rfl, -⟩ := by simpa [code] using hc
      exact .inr (.inl ⟨by simp [Mem.setTally], .inl (by simpa [Mem.setTally] using ht)⟩)
  · have hg' : (g, n) ∈ s.mem.created t := by simpa [hold t hu] using hg
    have ht := (code_others hc hu).2
    obtain hcov | ⟨hn, hf⟩ | ⟨hp, hf⟩ := h g n hg'
    · exact .inl (hcov.step hc)
    · obtain hn' | hcov := pending_step hr hn hc
      · exact .inr (.inl ⟨hn', by simpa [Function.update_of_ne hu, ht] using hf⟩)
      · exact .inl hcov
    · exact .inr (.inr ⟨by simpa [Function.update_of_ne hu] using hp, by simpa [ht] using hf⟩)

/-- The tasks that a thread created are covered or in the batch of its group. -/
theorem follows [CharZero ι] (h : (machine capacity).Reachable s) (t : Thread G) :
    Follows s t := by
  refine Program.invariant (P := program capacity) (C := fun _ _ => True)
    (I := fun s => ∀ t, Follows s t) ?_ ?_ h t
  · rintro m rfl t g n hg
    cases hg
  · rintro s u call m p hr hi _ hc t
    exact (hi t).step hr hc

end Flush

/-! ## Conservation -/

section Conserved

variable [DecidableEq G]

/-- Signals are conserved: nothing is signalled twice or forgotten. -/
structure Conserved (s : Config (Thread G) (Mem G ℤ) (Pc G ℤ)) : Prop where
  /-- What was pushed into a queue is there or was taken. -/
  stocked : ∀ b, (s.mem.tally b).pushed.length = (s.mem.rq b).length + s.mem.taken b
  /-- While no call is in its update section, a push is signalled or pending. -/
  pushed : ∀ b, (∀ t, ¬(s.pc t).Updates b) →
    ((s.mem.tally b).pushed.length : ℤ) = (s.mem.tally b).nsignaled + (s.mem.tally b).numNosignal
  /-- What is signalled are the arguments of the calls of `signal_task` claimed. -/
  claimed : ∀ b, ((s.mem.tally b).claims.map Claim.amount).sum = (s.mem.tally b).nsignaled
  /-- A thread has made the calls it has claimed, but for one that it makes next. -/
  made : ∀ t b, (s.mem.tally b).claims.filter (·.thread = t) = s.mem.made t b ++ (s.pc t).owed b
  /-- What a call has locked it has unlocked once when it returns, and it holds no mutex. -/
  unlocked : ∀ t, s.pc t = .idle →
    (∃ gs, s.mem.trail t = balanced gs) ∧ ∀ g, s.mem.mutex g ≠ some t
  /-- When `bthread_flush` has returned in a non-worker, its NOSIGNAL tasks are covered. -/
  flushed : ∀ i, s.pc (.other i) = .idle → s.mem.call (.other i) = some .bthreadFlush →
    ∀ g n, (g, n) ∈ s.mem.created (.other i) → Covered s (g, .remote) n

variable {capacity : Queue G → ℕ} {s : Config (Thread G) (Mem G ℤ) (Pc G ℤ)}

/-- What was pushed into a queue is there or was taken. -/
theorem stocked (h : (machine capacity).Reachable s) (b : Queue G) :
    (s.mem.tally b).pushed.length = (s.mem.rq b).length + s.mem.taken b := by
  refine Program.invariant (P := program capacity) (C := fun _ _ => True)
    (I := fun s => (s.mem.tally b).pushed.length = (s.mem.rq b).length + s.mem.taken b) ?_ ?_ h
  · rintro m rfl
    rfl
  · intro s t call m p _ ih _ hc
    have := code_stock hc b
    show (m.tally b).pushed.length = (m.rq b).length + m.taken b
    omega

/-- **Signals are conserved** in every reachable state, whatever the threads call. -/
theorem conserved (h : (machine capacity).Reachable s) : Conserved s where
  stocked := stocked h
  pushed b hb := by
    obtain ⟨hand, hs, hh⟩ := sound h b
    obtain rfl : hand = [] := by
      by_contra hne
      obtain ⟨t, ht⟩ := hh hne
      exact hb t ht
    simpa using hs.pushed_length
  claimed b := by
    obtain ⟨hand, hs, -⟩ := sound h b
    exact hs.sum.symm
  made := (made_iff h).2
  unlocked t ht := by
    refine ⟨?_, fun g hg => ?_⟩
    · obtain ⟨gs, hgs⟩ := trail_balanced h t
      exact ⟨gs, by simpa [ht, Pc.held, Pc.sec] using hgs⟩
    · have hs := ((mutex_iff h).2 g t).mp hg
      rw [ht] at hs
      cases hs
  flushed i hi hc g n hg := by
    have ht := (serves h (.other i)).flush i rfl hc
    obtain hcov | ⟨-, hf⟩ | ⟨hp, -⟩ := follows h (.other i) g n hg
    · exact hcov
    · rw [hi, ht] at hf
      obtain hf | hf := hf
      · cases hf
      · exact hf.elim
    · rw [hi] at hp
      cases hp

/-- A task created with `BTHREAD_NOSIGNAL` by a non-worker, and the flush that announces it; a
worker takes the task. -/
def startAndFlush : List (Thread Unit × Call Unit) :=
  List.replicate 5 (.other 0, .startFromNonWorker () 5 true) ++
    List.replicate 8 (.other 0, .bthreadFlush) ++ [(.worker (), .take ((), .remote) 0)]

theorem conserved_startAndFlush : ∃ s : Config (Thread Unit) (Mem Unit ℤ) (Pc Unit ℤ),
    s.pc (.other 0) = .idle ∧ s.mem.created (.other 0) = [((), 0)] ∧
      (s.mem.tally ((), .remote)).nsignaled = 1 ∧ s.mem.taken ((), .remote) = 1 ∧
      Conserved s := by
  obtain ⟨s, h, hp, hc, hn, ht⟩ : ∃ s, (machine fun _ => 1).exec ⟨.initial, fun _ => .idle⟩
      startAndFlush = some s ∧ s.pc (.other 0) = .idle ∧ s.mem.created (.other 0) = [((), 0)] ∧
        (s.mem.tally ((), .remote)).nsignaled = (1 : ℤ) ∧ s.mem.taken ((), .remote) = 1 :=
    ⟨_, rfl, rfl, rfl, rfl, rfl⟩
  exact ⟨s, hp, hc, hn, ht, conserved (.exec (.of_init ⟨rfl, rfl⟩) h)⟩

end Conserved

end Bthread.Signals
