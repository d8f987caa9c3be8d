import Bthread.Lib.Section
import Mathlib.Data.Nat.Notation

set_option relaxedAutoImplicit false
set_option autoImplicit false

/-!
# One pool for all threads

Any number of threads ask for the pool of a type. Whoever finds the pointer `NULL` takes the mutex
and looks again, as another thread may have been faster, before it makes a pool.

## Main definitions

* `Bthread.Singleton.Mem`, `Bthread.Singleton.Pc`, `Bthread.Singleton.code` — `singleton`, access by
  access.
* `Bthread.Singleton.machine` — any number of threads, any interleaving.

## Main results

* `Bthread.Singleton.onePool` — one pool is made, and everybody gets it.
-/

namespace Bthread.Singleton

open Conc (Config Program Guarded)

variable {ι P : Type*}

/-- The memory. -/
structure Mem (ι P : Type*) where
  /-- `_singleton`. -/
  singleton : Option P
  /-- `_singleton_mutex`. -/
  singletonMutex : Option ι
  /-- History: the pools that were made. -/
  made : List P
  /-- History: what the calls have returned. -/
  returned : List P

/-- Where a call is. -/
inductive Pc (P : Type*)
  | idle
  | load
  | lock
  | loadAgain
  | new
  | store (p : P)
  | unlock (p : P)
  deriving DecidableEq

/-- A step: a call, the next access, or `new` of a pool. -/
inductive Move (P : Type*)
  | call
  | step
  | new (p : P)

variable [DecidableEq P]

/-- One access of a call. -/
def code (t : ι) (p : Pc P) (k : Move P) (m : Mem ι P) : Option (Mem ι P × Pc P) :=
  match p, k with
  | .idle, .call => some (m, .load)
  | .load, .step =>
    match m.singleton with
    | some q => some ({ m with returned := q :: m.returned }, .idle)
    | none => some (m, .lock)
  | .lock, .step =>
    if m.singletonMutex = none then some ({ m with singletonMutex := some t }, .loadAgain) else none
  | .loadAgain, .step =>
    match m.singleton with
    | some q => some (m, .unlock q)
    | none => some (m, .new)
  | .new, .new q => if q ∈ m.made then none else some ({ m with made := q :: m.made }, .store q)
  | .store q, .step => some ({ m with singleton := some q }, .unlock q)
  | .unlock q, .step =>
    some ({ m with singletonMutex := none, returned := q :: m.returned }, .idle)
  | _, _ => none

/-- The interleaved calls. -/
def program : Program ι (Mem ι P) (Pc P) (Move P) where
  code := code

/-- At the start there is no pool. -/
structure Mem.Initial (m : Mem ι P) : Prop where
  singleton : m.singleton = none
  singletonMutex : m.singletonMutex = none
  made : m.made = []
  returned : m.returned = []

/-- Any number of threads, any interleaving. -/
def machine [DecidableEq ι] : Conc.Machine (Config ι (Mem ι P) (Pc P)) (ι × Move P) :=
  program.machine Mem.Initial .idle

/-- The section of `_singleton_mutex`. -/
def Pc.section : Pc P → Option Unit
  | .loadAgain | .new | .store _ | .unlock _ => some ()
  | _ => none

/-- What a call that has the section for itself knows. -/
def Knows (_b : Unit) (p : Pc P) (m : Mem ι P) : Prop :=
  match p with
  | .new => m.made = [] ∧ m.singleton = none
  | .store q => m.made = [q] ∧ m.singleton = none
  | .unlock q => m.made = [q] ∧ m.singleton = some q
  | _ => m.made = m.singleton.toList

variable [DecidableEq ι] {s : Config ι (Mem ι P) (Pc P)} {t u : ι} {k : Move P} {m' : Mem ι P}
  {p' : Pc P}

/-- The mutex is held in its section. -/
theorem mutex_held (h : machine.Reachable s) (t : ι) :
    s.mem.singletonMutex = some t ↔ (s.pc t).section = some () := by
  refine (Program.mutex (β := Unit) (fun m _ => m.singletonMutex)
    (fun _ p _ => p.section = some ()) (fun _ => True)
    (fun m hm => ⟨trivial, fun _ => hm.singletonMutex⟩) (fun _ _ => by simp [Pc.section])
    (fun s t k m' p' _ _ hl hc => ⟨trivial, fun _ => ?_⟩) h).2 () t
  change code t (s.pc t) k s.mem = some (m', p') at hc
  generalize s.pc t = p at hc
  unfold code at hc
  split at hc
  · cases hc
    exact .keep rfl Iff.rfl
  · split at hc <;> cases hc <;> exact .keep rfl Iff.rfl
  · split at hc
    case isTrue hn =>
      cases hc
      exact .acquire hn rfl rfl
    case isFalse => cases hc
  · split at hc <;> cases hc <;> exact .keep rfl Iff.rfl
  · split at hc <;> cases hc
    exact .keep rfl Iff.rfl
  · cases hc
    exact .keep rfl Iff.rfl
  · cases hc
    exact .release rfl rfl (by simp [Pc.section])
  · cases hc

/-- There is one pool, and what the calls have returned is in the pointer. -/
structure Given (s : Config ι (Mem ι P) (Pc P)) : Prop where
  made_le : s.mem.made.length ≤ 1
  made : ∀ q, s.mem.singleton = some q → s.mem.made = [q]
  returned : ∀ q ∈ s.mem.returned, s.mem.singleton = some q
  unlock : ∀ t q, s.pc t = .unlock q → s.mem.singleton = some q

omit [DecidableEq P] in
/-- An access that does not write the pointer. -/
theorem Given.access (h : Given s) (hm : m'.made = s.mem.made) (hs : m'.singleton = s.mem.singleton)
    (hr : ∀ q ∈ m'.returned, q ∈ s.mem.returned ∨ s.mem.singleton = some q)
    (hp : ∀ q, p' = .unlock q → s.mem.singleton = some q) :
    Given ⟨m', Function.update s.pc t p'⟩ := by
  refine ⟨?_, fun q hq => ?_, fun q hq => ?_, fun u q hu => ?_⟩
  · show m'.made.length ≤ 1
    rw [hm]
    exact h.made_le
  · show m'.made = [q]
    rw [hm]
    exact h.made q (hs ▸ hq)
  · show m'.singleton = some q
    rw [hs]
    exact (hr q hq).elim (h.returned q) id
  · show m'.singleton = some q
    rw [hs]
    change Function.update s.pc t p' u = _ at hu
    rcases eq_or_ne u t with rfl | hne
    · rw [Function.update_self] at hu
      exact hp q hu
    · rw [Function.update_of_ne hne] at hu
      exact h.unlock u q hu

omit [DecidableEq P] in
/-- A pool is made where there is none. -/
theorem Given.new (h : Given s) (hm : s.mem.made = []) (hn : s.mem.singleton = none) (q : P) :
    Given ⟨{ s.mem with made := q :: s.mem.made }, Function.update s.pc t (.store q)⟩ := by
  refine ⟨by simp [hm], fun r hr => ?_, h.returned, fun u r hu => ?_⟩
  · cases hn.symm.trans hr
  · change Function.update s.pc t _ u = _ at hu
    rcases eq_or_ne u t with rfl | hne
    · rw [Function.update_self] at hu
      cases hu
    · rw [Function.update_of_ne hne] at hu
      exact h.unlock u r hu

omit [DecidableEq P] in
/-- The pool is stored where the pointer is `NULL`. -/
theorem Given.store (h : Given s) {q : P} (hm : s.mem.made = [q]) (hn : s.mem.singleton = none) :
    Given ⟨{ s.mem with singleton := some q }, Function.update s.pc t (.unlock q)⟩ := by
  refine ⟨h.made_le, fun r hr => ?_, fun r hr => ?_, fun u r hu => ?_⟩
  · cases hr
    exact hm
  · -- nothing was returned as long as the pointer was `NULL`
    cases hn.symm.trans (h.returned r hr)
  · change Function.update s.pc t (.unlock q) u = _ at hu
    rcases eq_or_ne u t with rfl | hne
    · rw [Function.update_self] at hu
      cases hu
      rfl
    · rw [Function.update_of_ne hne] at hu
      cases hn.symm.trans (h.unlock u r hu)

omit [DecidableEq P] [DecidableEq ι] in
/-- What is known outside of the section. -/
theorem knows_outside {m : Mem ι P} {p : Pc P} (hp : p.section = none) :
    Knows () p m ↔ m.made = m.singleton.toList := by
  cases p with
  | idle | load | lock => exact Iff.rfl
  | _ => cases hp

omit [DecidableEq P] in
/-- An access keeps the data of the section if it is made in the section, or makes and writes
nothing. -/
theorem guarded_step (hr : Guarded Pc.section Knows s)
    (hx : ∀ c d, (s.pc c).section = some () → (s.pc d).section = some () → c = d)
    (hk : Knows () (s.pc t) s.mem → Knows () p' m')
    (ho : m'.made = s.mem.made ∧ m'.singleton = s.mem.singleton ∨ (s.pc t).section = some ()) :
    Guarded Pc.section Knows ⟨m', Function.update s.pc t p'⟩ := by
  have hnone : ∀ (b : Unit) (p : Pc P), p.section ≠ some b → p.section = none := fun b p hp =>
    Option.eq_none_iff_forall_ne_some.mpr fun _ => hp
  refine hr.step (fun _ => hx) (fun b p q m hp hq => ?_) (fun _ => hk) fun b q hc _ hq => ?_
  · rw [knows_outside (hnone b p hp)]
    exact (knows_outside (hnone b q hq)).mpr
  · rcases ho with ⟨hm, hs⟩ | ho
    · unfold Knows at hq ⊢
      rw [hm, hs]
      exact hq
    · exact absurd ho hc

/-- What every access keeps.

**Proof sketch.** Only the thread in the section makes a pool or writes the pointer. It has found
the pointer `NULL` there, hence nothing is made but what it makes, and nothing was returned yet; all
other accesses read the pointer and return what they have read. -/
theorem inv_step (hr : machine.Reachable s) (hg : Guarded Pc.section Knows s) (hv : Given s)
    (hc : code t (s.pc t) k s.mem = some (m', p')) :
    Guarded Pc.section Knows ⟨m', Function.update s.pc t p'⟩ ∧
      Given ⟨m', Function.update s.pc t p'⟩ := by
  have hx : ∀ c d, (s.pc c).section = some () → (s.pc d).section = some () → c = d :=
    fun c d hc hd => Option.some.inj
      (((mutex_held hr c).mpr hc).symm.trans ((mutex_held hr d).mpr hd))
  have hin : (s.pc t).section = some () → Knows () (s.pc t) s.mem := hg.inside (fun _ => hx)
  have hgs : ∀ {m' p'}, (Knows () (s.pc t) s.mem → Knows () p' m') →
      (m'.made = s.mem.made ∧ m'.singleton = s.mem.singleton ∨ (s.pc t).section = some ()) →
      Guarded Pc.section Knows ⟨m', Function.update s.pc t p'⟩ := guarded_step hg hx
  generalize hp : s.pc t = p at hc hgs hin
  cases p with
  | idle =>
    cases k with
    | call =>
      cases hc
      exact ⟨hgs id (.inl ⟨rfl, rfl⟩), hv.access rfl rfl (fun _ => .inl) (by simp)⟩
    | _ => cases hc
  | load =>
    cases k with
    | step =>
      simp only [code] at hc
      split at hc
      case h_1 q hq =>
        cases hc
        refine ⟨hgs id (.inl ⟨rfl, rfl⟩), hv.access rfl rfl (fun r hr => ?_) (by simp)⟩
        rcases List.mem_cons.mp hr with rfl | hr
        · exact .inr hq
        · exact .inl hr
      case h_2 =>
        cases hc
        exact ⟨hgs id (.inl ⟨rfl, rfl⟩), hv.access rfl rfl (fun _ => .inl) (by simp)⟩
    | _ => cases hc
  | lock =>
    cases k with
    | step =>
      simp only [code] at hc
      split at hc
      case isTrue =>
        cases hc
        exact ⟨hgs id (.inl ⟨rfl, rfl⟩), hv.access rfl rfl (fun _ => .inl) (by simp)⟩
      case isFalse => cases hc
    | _ => cases hc
  | loadAgain =>
    cases k with
    | step =>
      have hk : s.mem.made = s.mem.singleton.toList := hin rfl
      simp only [code] at hc
      split at hc
      case h_1 q hq =>
        cases hc
        refine ⟨hgs (fun _ => ⟨?_, hq⟩) (.inr rfl),
          hv.access rfl rfl (fun _ => .inl) (by simp [hq])⟩
        rw [hk, hq]
        rfl
      case h_2 hn =>
        cases hc
        refine ⟨hgs (fun _ => ⟨?_, hn⟩) (.inr rfl), hv.access rfl rfl (fun _ => .inl) (by simp)⟩
        rw [hk, hn]
        rfl
    | _ => cases hc
  | new =>
    cases k with
    | new q =>
      simp only [code] at hc
      split at hc
      case isTrue => cases hc
      case isFalse =>
        cases hc
        obtain ⟨hm, hn⟩ : s.mem.made = [] ∧ s.mem.singleton = none := hin rfl
        exact ⟨hgs (fun hk => ⟨congrArg _ hk.1, hk.2⟩) (.inr rfl), hv.new hm hn q⟩
    | _ => cases hc
  | store q =>
    cases k with
    | step =>
      cases hc
      obtain ⟨hm, hn⟩ : s.mem.made = [q] ∧ s.mem.singleton = none := hin rfl
      exact ⟨hgs (fun hk => ⟨hk.1, rfl⟩) (.inr rfl), hv.store hm hn⟩
    | _ => cases hc
  | unlock q =>
    cases k with
    | step =>
      cases hc
      have hs := hv.unlock t q hp
      refine ⟨hgs (fun hk => ?_) (.inl ⟨rfl, rfl⟩), hv.access rfl rfl (fun r hr => ?_) (by simp)⟩
      · show s.mem.made = s.mem.singleton.toList
        rw [hk.1, hk.2]
        rfl
      · rcases List.mem_cons.mp hr with rfl | hr
        · exact .inr hs
        · exact .inl hr
    | _ => cases hc

/-- **The invariant**: the mutex guards the making of the pool. -/
theorem inv (h : machine.Reachable s) : Guarded Pc.section Knows s ∧ Given s := by
  refine Program.invariant (C := fun _ _ => True)
    (I := fun s => Guarded Pc.section Knows s ∧ Given s)
    (fun m hm => ⟨fun _ _ _ => ?_, ?_, ?_, ?_, ?_⟩)
    (fun s t k m' p' hr hi _ hc => inv_step hr hi.1 hi.2 hc) h
  · show m.made = m.singleton.toList
    rw [hm.made, hm.singleton]
    rfl
  · simp [hm.made]
  · simp [hm.singleton]
  · simp [hm.returned]
  · simp

/-- **One pool for all**: in every reachable state at most one pool was made, and every call that
has returned has returned it.

**Proof sketch.** What was returned is in the pointer, either because it was read there or because
the thread in the section has stored it; and what is in the pointer is the only pool made. -/
theorem onePool (h : machine.Reachable s) :
    s.mem.made.length ≤ 1 ∧ ∀ q ∈ s.mem.returned, s.mem.made = [q] ∧ s.mem.singleton = some q := by
  obtain ⟨-, hv⟩ := inv h
  exact ⟨hv.made_le, fun q hq => ⟨hv.made q (hv.returned q hq), hv.returned q hq⟩⟩

/-- Both threads find the pointer `NULL`; the second one finds the pool of the first when it looks
again. -/
theorem onePool_twoThreads : ∃ s : Config Bool (Mem Bool ℕ) (Pc ℕ),
    machine.exec ⟨⟨none, none, [], []⟩, fun _ => .idle⟩
        ([(false, .call), (false, .step), (true, .call), (true, .step), (false, .step),
          (false, .step), (false, .new 7)] ++ List.replicate 2 (false, .step) ++
          List.replicate 3 (true, .step)) = some s ∧
      s.mem.returned = [7, 7] ∧ s.mem.made = [7] := by
  obtain ⟨s, h, hr⟩ : ∃ s : Config Bool (Mem Bool ℕ) (Pc ℕ),
      machine.exec ⟨⟨none, none, [], []⟩, fun _ => .idle⟩
        ([(false, .call), (false, .step), (true, .call), (true, .step), (false, .step),
          (false, .step), (false, .new 7)] ++ List.replicate 2 (false, .step) ++
          List.replicate 3 (true, .step)) = some s ∧ s.mem.returned = [7, 7] := ⟨_, rfl, rfl⟩
  have hs := onePool (.exec (.of_init ⟨⟨rfl, rfl, rfl, rfl⟩, rfl⟩) h)
  exact ⟨s, h, hr, (hs.2 7 (by rw [hr]; exact List.mem_cons_self)).1⟩

end Bthread.Singleton
