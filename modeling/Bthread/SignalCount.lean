import Mathlib.Data.BitVec
import Mathlib.Algebra.Order.BigOperators.Group.List
import Mathlib.Algebra.Order.Ring.Nat
import Mathlib.Data.Nat.Cast.Basic
import Mathlib.Algebra.Order.Ring.Int
import Mathlib.Algebra.BigOperators.Ring.Finset
import Bthread.Lib.Trace
import Bthread.Flushes

set_option relaxedAutoImplicit false
set_option autoImplicit false

/-!
# The number of signals

`get_cumulated_signal_count` with the widths of the source: the counters of a group are 32-bit words
and are added as such, the sum is widened and accumulated in 64 bits.

## Main definitions

* `Bthread.Signals.Census`, `Bthread.Signals.counted` — the threads and the registry of groups.
* `Bthread.Signals.getCumulatedSignalCount` — the statistic.
* `Bthread.Signals.Census.total` — the number of pushes signalled.

## Main results

* `Bthread.Signals.toInt_foldl` — nothing is lost in the accumulation.
* `Bthread.Signals.exact_iff` — the statistic is exact as long as no group has signalled `2 ^ 31`
  pushes.
-/

namespace Bthread.Signals

open Conc (Config Machine Program)

variable {G : Type*}

/-- The threads and the groups registered in `_groups`. -/
structure Census (G : Type*) where
  /-- The threads and their memory. -/
  config : Config (Thread G) (Mem G (BitVec 32)) (Pc G (BitVec 32))
  /-- `_groups`, as far as `_ngroup`. -/
  groups : List G

/-- A step of a thread, or a change of the registry. -/
inductive Change (G : Type*)
  | step (t : Thread G) (call : Call G)
  | addGroup (g : G)
  | destroyGroup (g : G)
  deriving DecidableEq

/-- The counters of a group, added as `int`. -/
def Census.signals (s : Census G) (g : G) : BitVec 32 :=
  (s.config.mem.tally (g, .own)).nsignaled + (s.config.mem.tally (g, .remote)).nsignaled

/-- `TaskControl::get_cumulated_signal_count`. -/
def getCumulatedSignalCount (s : Census G) : BitVec 64 :=
  s.groups.foldl (fun c g => c + (s.signals g).signExtend 64) 0

/-- The number of pushes that the calls of `signal_task` counted announce. -/
def Tally.announced {ι : Type*} (y : Tally G ι) : ℕ := (y.claims.flatMap Claim.covers).length

/-- The number of pushes through the queues of a group that have been signalled. -/
def Census.signalled (s : Census G) (g : G) : ℕ :=
  (s.config.mem.tally (g, .own)).announced + (s.config.mem.tally (g, .remote)).announced

/-- The number of pushes that the registered groups have signalled. -/
def Census.total (s : Census G) : ℕ := (s.groups.map s.signalled).sum

/-- The threads and the registry; `maxConcurrency` is `BTHREAD_MAX_CONCURRENCY`. -/
def counted [DecidableEq G] (capacity : Queue G → ℕ) (maxConcurrency : ℕ) :
    Machine (Census G) (Change G) where
  init s := (machine capacity).init s.config ∧ s.groups = []
  next s
    | .step t call => ((machine capacity).next s.config (t, call)).map fun c =>
      { s with config := c }
    | .addGroup g =>
      if g ∈ s.groups then none
      else if s.groups.length < maxConcurrency then some { s with groups := s.groups ++ [g] }
      else some s
    -- the last group takes the place of the one removed
    | .destroyGroup g =>
      s.groups.getLast?.bind fun last =>
        if g ∈ s.groups then
          some { s with groups := (s.groups.set (s.groups.idxOf g) last).dropLast }
        else none

/-! ## Words -/

/-- The value of a count in a 32-bit word. -/
theorem toInt_natCast (n : ℕ) : (n : BitVec 32).toInt =
    if (n : ℤ) % 2 ^ 32 < 2 ^ 31 then (n : ℤ) % 2 ^ 32 else (n : ℤ) % 2 ^ 32 - 2 ^ 32 := by
  rw [BitVec.natCast_eq_ofNat, BitVec.toInt_ofNat', Int.bmod_def]
  rfl

/-- A count in a 32-bit word is at most the count. -/
theorem toInt_natCast_le (n : ℕ) : (n : BitVec 32).toInt ≤ n := by
  rw [toInt_natCast]
  split <;> omega

/-- A count in a 32-bit word is exact below `2 ^ 31`, and only there. -/
theorem toInt_natCast_eq_iff (n : ℕ) : (n : BitVec 32).toInt = n ↔ n < 2 ^ 31 := by
  rw [toInt_natCast]
  constructor
  · intro h
    split at h <;> omega
  · intro h
    split <;> omega

/-- Words of 32 bits are accumulated in 64 bits without loss, as long as there are at most `2 ^ 31`
of them. -/
theorem toInt_foldl (f : G → BitVec 32) (gs : List G) (k : ℕ) (c : BitVec 64)
    (hc : -(k * 2 ^ 31 : ℤ) ≤ c.toInt ∧ c.toInt ≤ k * 2 ^ 31) (hk : k + gs.length ≤ 2 ^ 31) :
    (gs.foldl (fun c g => c + (f g).signExtend 64) c).toInt =
      c.toInt + (gs.map fun g => (f g).toInt).sum := by
  induction gs generalizing k c with
  | nil => simp
  | cons g gs ih =>
    rw [List.length_cons] at hk
    have hf : -2 ^ 31 ≤ (f g).toInt ∧ (f g).toInt < 2 ^ 31 :=
      ⟨BitVec.le_toInt (f g), BitVec.toInt_lt⟩
    have hadd : (c + (f g).signExtend 64).toInt = c.toInt + (f g).toInt := by
      rw [BitVec.toInt_add, BitVec.toInt_signExtend_of_le (by omega)]
      refine Int.bmod_eq_of_le ?_ ?_ <;> omega
    have hle : -((k + 1 : ℕ) * 2 ^ 31 : ℤ) ≤ (c + (f g).signExtend 64).toInt ∧
        (c + (f g).signExtend 64).toInt ≤ (k + 1 : ℕ) * 2 ^ 31 := by
      rw [hadd]
      constructor <;> push_cast <;> omega
    rw [List.foldl_cons, ih (k + 1) _ hle (by omega), hadd, List.map_cons, List.sum_cons,
      add_assoc]

/-- A sum is at most another one, and equal only if every term is. -/
theorem sum_eq_iff {f f' : G → ℤ} (gs : List G) (h : ∀ g ∈ gs, f g ≤ f' g) :
    (gs.map f).sum = (gs.map f').sum ↔ ∀ g ∈ gs, f g = f' g := by
  induction gs with
  | nil => simp
  | cons g gs ih =>
    have hg := h g List.mem_cons_self
    have hgs := fun x hx => h x (List.mem_cons_of_mem g hx)
    have hle := List.sum_le_sum hgs
    simp only [List.map_cons, List.sum_cons, List.forall_mem_cons, ← ih hgs]
    omega

/-! ## Runs -/

section Runs

variable [DecidableEq G] {capacity : Queue G → ℕ} {maxConcurrency : ℕ} {s s' : Census G}

/-- No group is removed. -/
def NoRemoval (_ : Census G) (a : Change G) : Prop := ∀ g, a ≠ .destroyGroup g

/-- The threads of a census move as in their own machine, and no more groups are registered than
there is room for. -/
theorem config_reachable (h : (counted capacity maxConcurrency).Reachable s) :
    (machine capacity).Reachable s.config ∧ s.groups.length ≤ maxConcurrency := by
  refine Machine.ReachableIf.invariant (M := counted capacity maxConcurrency)
    (C := fun _ _ => True) (I := fun s =>
      (machine capacity).Reachable s.config ∧ s.groups.length ≤ maxConcurrency)
    (fun s hs => ⟨.of_init hs.1, by simp [hs.2]⟩) (fun s a s' _ hi _ hn => ?_) h
  cases a with
  | step t call =>
    obtain ⟨c, hc, rfl⟩ := Option.map_eq_some_iff.mp hn
    exact ⟨hi.1.step hc, hi.2⟩
  | addGroup g =>
    simp only [counted] at hn
    split at hn
    · cases hn
    · split at hn
      · obtain rfl := Option.some.inj hn
        refine ⟨hi.1, ?_⟩
        simp only [List.length_append, List.length_singleton]
        omega
      · obtain rfl := Option.some.inj hn
        exact hi
  | destroyGroup g =>
    obtain ⟨l, -, hn⟩ := Option.bind_eq_some_iff.mp hn
    split at hn
    · obtain rfl := Option.some.inj hn
      refine ⟨hi.1, ?_⟩
      have := hi.2
      simp only [List.length_dropLast, List.length_set]
      omega
    · cases hn

/-- A step of a thread does not take signals back. -/
theorem announced_le {c c' : Config (Thread G) (Mem G (BitVec 32)) (Pc G (BitVec 32))}
    {a : Thread G × Call G} (h : (machine capacity).next c a = some c') (b : Queue G) :
    (c.mem.tally b).announced ≤ (c'.mem.tally b).announced := by
  obtain ⟨m, p, hc, rfl⟩ := Program.next_eq_some.mp h
  obtain ⟨new, ha⟩ := code_announces hc b
  simp [Tally.announced, ha.claims]

/-- While no group is removed, groups stay registered and signals are not taken back. -/
theorem grows {tr : List (Census G × Change G)}
    (h : (counted capacity maxConcurrency).Trace NoRemoval s tr s') :
    s.groups <+: s'.groups ∧ ∀ g, s.signalled g ≤ s'.signalled g := by
  induction h with
  | refl => exact ⟨List.prefix_rfl, fun _ => le_rfl⟩
  | snoc _ hC hn ih =>
    rename_i u v a _
    obtain ⟨h₁, h₂⟩ := ih
    cases a with
    | step t call =>
      obtain ⟨c, hc, rfl⟩ := Option.map_eq_some_iff.mp hn
      exact ⟨h₁, fun g => (h₂ g).trans (Nat.add_le_add (announced_le hc _) (announced_le hc _))⟩
    | addGroup g =>
      simp only [counted] at hn
      split at hn
      · cases hn
      · split at hn
        · obtain rfl := Option.some.inj hn
          exact ⟨h₁.trans (List.prefix_append _ _), h₂⟩
        · obtain rfl := Option.some.inj hn
          exact ⟨h₁, h₂⟩
    | destroyGroup g => exact absurd rfl (hC g)

/-- So the number of pushes signalled does not decrease. -/
theorem total_le {tr : List (Census G × Change G)}
    (h : (counted capacity maxConcurrency).Trace NoRemoval s tr s') : s.total ≤ s'.total := by
  obtain ⟨⟨gs, hgs⟩, hle⟩ := grows h
  unfold Census.total
  rw [← hgs, List.map_append, List.sum_append]
  exact (List.sum_le_sum fun g _ => hle g).trans (Nat.le_add_right _ _)

/-- The counters of a group hold the number of pushes it has signalled. -/
theorem signals_eq (h : (machine capacity).Reachable s.config) (g : G) :
    s.signals g = (s.signalled g : BitVec 32) := by
  obtain ⟨_, h₁, -⟩ := sound h (g, .own)
  obtain ⟨_, h₂, -⟩ := sound h (g, .remote)
  rw [Census.signals, Census.signalled, Nat.cast_add, h₁.sum, h₂.sum, sum_amount h₁.amount,
    sum_amount h₂.amount, Tally.announced, Tally.announced]

/-- What the statistic says. -/
theorem count_eq (hmax : maxConcurrency ≤ 2 ^ 31)
    (h : (counted capacity maxConcurrency).Reachable s) :
    (getCumulatedSignalCount s).toInt =
      (s.groups.map fun g => ((s.signalled g : BitVec 32).toInt)).sum := by
  obtain ⟨hc, hl⟩ := config_reachable h
  have hf := toInt_foldl s.signals s.groups 0 0 (by simp) (by omega)
  rw [getCumulatedSignalCount, hf]
  simp [signals_eq hc]

/-- The statistic is exact at one point exactly when no group registered has signalled too much. -/
theorem count_exact_iff (hmax : maxConcurrency ≤ 2 ^ 31)
    (h : (counted capacity maxConcurrency).Reachable s) :
    (getCumulatedSignalCount s).toInt = s.total ↔ ∀ g ∈ s.groups, s.signalled g < 2 ^ 31 := by
  have hsum : (s.total : ℤ) = (s.groups.map fun g => (s.signalled g : ℤ)).sum := by
    rw [Census.total, Nat.cast_list_sum, List.map_map]
    rfl
  rw [count_eq hmax h, hsum, sum_eq_iff _ fun g _ => toInt_natCast_le _]
  exact forall₂_congr fun g _ => toInt_natCast_eq_iff _

/-- The statistic is exact at both ends of a run, and does not decrease. -/
def Exact (s s' : Census G) : Prop :=
  (getCumulatedSignalCount s).toInt = s.total ∧ (getCumulatedSignalCount s').toInt = s'.total ∧
    (getCumulatedSignalCount s).toInt ≤ (getCumulatedSignalCount s').toInt

/-- **The statistic is exact** and does not decrease along a run on which no group is removed
exactly when no registered group has signalled `2 ^ 31` pushes at its end. -/
theorem exact_iff (hmax : maxConcurrency ≤ 2 ^ 31)
    (hs : (counted capacity maxConcurrency).Reachable s) {tr : List (Census G × Change G)}
    (h : (counted capacity maxConcurrency).Trace NoRemoval s tr s') :
    Exact s s' ↔ ∀ g ∈ s'.groups, s'.signalled g < 2 ^ 31 := by
  have hs' := h.reachable hs
  obtain ⟨hp, hle⟩ := grows h
  constructor
  · rintro ⟨-, h', -⟩
    exact (count_exact_iff hmax hs').mp h'
  · intro hlt
    have h₁ := (count_exact_iff hmax hs).mpr fun g hg =>
      (hle g).trans_lt (hlt g (hp.subset hg))
    have h₂ := (count_exact_iff hmax hs').mpr hlt
    refine ⟨h₁, h₂, ?_⟩
    rw [h₁, h₂]
    exact_mod_cast total_le h

end Runs

/-! ## A long run -/

/-- One statement of a thread. -/
theorem reachable_code [DecidableEq G] {capacity : Queue G → ℕ} {maxConcurrency : ℕ}
    {m m' : Mem G (BitVec 32)} {pc : Thread G → Pc G (BitVec 32)} {gs : List G} (t : Thread G)
    (call : Call G) {p' : Pc G (BitVec 32)}
    (h : (counted capacity maxConcurrency).Reachable ⟨⟨m, pc⟩, gs⟩)
    (hc : code capacity t (pc t) call m = some (m', p')) :
    (counted capacity maxConcurrency).Reachable ⟨⟨m', Function.update pc t p'⟩, gs⟩ := by
  refine h.step (a := .step t call) (Option.map_eq_some_iff.mpr ⟨_, ?_, rfl⟩)
  exact Program.next_eq_some.mpr ⟨m', p', hc, rfl⟩

/-- The worker has returned and its queue is empty. -/
structure Ready (m : Mem Unit (BitVec 32)) (pc : Thread Unit → Pc Unit (BitVec 32)) : Prop where
  worker : pc (.worker ()) = .idle
  rq : m.rq ((), .own) = []
  pending : (m.tally ((), .own)).pending = []

/-- A worker pushes a task, which is taken at once, and one push more is signalled. -/
theorem Ready.push {m : Mem Unit (BitVec 32)} {pc : Thread Unit → Pc Unit (BitVec 32)}
    (hr : Ready m pc) (h : (counted (fun _ => 1) 1).Reachable ⟨⟨m, pc⟩, [()]⟩) :
    ∃ m' pc', Ready m' pc' ∧ (counted (fun _ => 1) 1).Reachable ⟨⟨m', pc'⟩, [()]⟩ ∧
      (m'.tally ((), .own)).announced = (m.tally ((), .own)).announced + 1 := by
  have h₁ := reachable_code (.worker ()) (.readyToRun 1 false) h (by rw [hr.worker]; rfl)
  have h₂ := reachable_code (.worker ()) .bthreadFlush h₁ (if_pos (by simp [hr.rq]))
  have h₃ := reachable_code (.worker ()) .bthreadFlush h₂ rfl
  have h₄ := reachable_code (.worker ()) .bthreadFlush h₃ rfl
  have h₅ := reachable_code (.worker ()) .bthreadFlush h₄ rfl
  have h₆ := reachable_code (.worker ()) .bthreadFlush h₅ rfl
  have h₇ := reachable_code (.worker ()) (.take ((), .own) 0) h₆
    (if_pos (by simp [Mem.push, Mem.setTally, Mem.signalTask]))
  refine ⟨_, _, ⟨rfl, ?_, rfl⟩, h₇, ?_⟩
  · simp [Mem.push, Mem.setTally, Mem.signalTask, hr.rq]
  · simp [Tally.announced, Mem.push, Mem.setTally, Mem.signalTask, hr.pending]

/-- Any number of pushes can be signalled. -/
theorem reachable_announced (n : ℕ) : ∃ m pc, Ready m pc ∧
    (counted (fun _ => 1) 1).Reachable ⟨⟨m, pc⟩, [()]⟩ ∧
      (m.tally ((), .own)).announced = n := by
  induction n with
  | zero =>
    have h₀ : (counted (fun _ : Queue Unit => 1) 1).Reachable ⟨⟨.initial, fun _ => .idle⟩, []⟩ :=
      .of_init ⟨⟨rfl, rfl⟩, rfl⟩
    exact ⟨_, _, ⟨rfl, rfl, rfl⟩, h₀.step (a := .addGroup ()) rfl, rfl⟩
  | succ n ih =>
    obtain ⟨m, pc, hr, h, hn⟩ := ih
    obtain ⟨m', pc', hr', h', hn'⟩ := hr.push h
    exact ⟨m', pc', hr', h', by rw [hn', hn]⟩

/-- A worker has pushed `2 ^ 31` tasks, and the statistic is not the number of pushes signalled. -/
theorem not_exact : ∃ s : Census Unit, (counted (fun _ => 1) 1).Reachable s ∧
    (getCumulatedSignalCount s).toInt ≠ s.total := by
  obtain ⟨m, pc, -, h, hn⟩ := reachable_announced (2 ^ 31)
  refine ⟨_, h, fun he => ?_⟩
  have hlt := (count_exact_iff (by omega) h).mp he () List.mem_cons_self
  unfold Census.signalled at hlt
  dsimp only at hlt
  omega

/-- A group is registered and its worker pushes a task. -/
def addAndPush : List (Change Unit) :=
  .addGroup () :: List.replicate 6 (.step (.worker ()) (.readyToRun 1 false))

/-- A change that removes no group. -/
def keepsGroups (_ : Census Unit) : Change Unit → Bool
  | .destroyGroup _ => false
  | _ => true

theorem exact_iff_addAndPush : ∃ s s' : Census Unit, s.total = 0 ∧ s'.total = 1 ∧
    (Exact s s' ↔ ∀ g ∈ s'.groups, s'.signalled g < 2 ^ 31) := by
  obtain ⟨s', h, ht⟩ : ∃ s', (counted (fun _ => 1) 1024).exec ⟨⟨.initial, fun _ => .idle⟩, []⟩
      addAndPush = some s' ∧ s'.total = 1 := ⟨_, rfl, rfl⟩
  obtain ⟨tr, htr, -, -⟩ := Machine.Trace.of_checked (C := NoRemoval) keepsGroups
    (fun s a ha g he => (by subst he; cases ha)) h rfl
  exact ⟨_, s', rfl, ht, exact_iff (by decide) (.of_init ⟨⟨rfl, rfl⟩, rfl⟩) htr⟩

end Bthread.Signals
