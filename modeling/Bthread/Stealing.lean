import Bthread.Lib.Stride
import Bthread.Tid

set_option relaxedAutoImplicit false
set_option autoImplicit false

/-!
# Stealing from every group

`TaskControl::steal_task` looks at the groups in strides of the offset of the thief, from a seed
that only grows. Its counter `s` is a `size_t`.

## Main definitions

* `Bthread.stealTask` — `TaskControl::steal_task`.
* `Bthread.CoversAll`, `Bthread.Unwrapped` — a scan that looks at every group, and when it does.

## Main results

* `Bthread.coversAll` — a scan whose `s` does not wrap covers all groups.
-/

namespace Bthread

open Conc (visits)

/-- The queues of a `TaskGroup` that a thief looks at. -/
structure GroupQueues where
  /-- `_rq`, from the end that `steal` takes from. -/
  rq : List Tid
  /-- `_remote_rq`, from the end that `pop` takes from. -/
  remoteRq : List Tid

/-- What `steal_task` leaves behind. -/
structure Stolen where
  /-- `*tid`, when it returns `true`. -/
  tid : Option Tid
  /-- `*seed`. -/
  seed : UInt64
  /-- The groups behind `_groups`. -/
  groups : ℕ → Option GroupQueues
  /-- History: the indices of `_groups` it has read. -/
  reads : List ℕ

/-- An earlier read of the loop. -/
def Stolen.read (i : ℕ) (r : Stolen) : Stolen := { r with reads := i :: r.reads }

/-- The `for` loop of `steal_task` with `k` rounds to go. -/
def stealLoop (groups : ℕ → Option GroupQueues) (ngroup offset : UInt64) : ℕ → UInt64 → Stolen
  | 0, s => ⟨none, s, groups, []⟩
  | k + 1, s =>
    match groups (s % ngroup).toNat with
    -- `g` is possibly `NULL` because of a concurrent `_destroy_group`
    | none => (stealLoop groups ngroup offset k (s + offset)).read (s % ngroup).toNat
    | some ⟨t :: rq, remoteRq⟩ =>
      ⟨some t, s, Function.update groups (s % ngroup).toNat (some ⟨rq, remoteRq⟩),
        [(s % ngroup).toNat]⟩
    | some ⟨[], t :: remoteRq⟩ =>
      ⟨some t, s, Function.update groups (s % ngroup).toNat (some ⟨[], remoteRq⟩),
        [(s % ngroup).toNat]⟩
    | some ⟨[], []⟩ => (stealLoop groups ngroup offset k (s + offset)).read (s % ngroup).toNat

/-- `TaskControl::steal_task(tid, seed, offset)`, where `_ngroup` is `ngroup`. -/
def stealTask (groups : ℕ → Option GroupQueues) (ngroup seed offset : UInt64) : Stolen :=
  if ngroup = 0 then ⟨none, seed, groups, []⟩
  else stealLoop groups ngroup offset ngroup.toNat seed

/-- The scan looks at every group: when it finds no task, it has read every index below `_ngroup`
exactly once, and the queues of every group there are empty. -/
def CoversAll (ngroup seed offset : UInt64) : Prop :=
  ∀ groups, (stealTask groups ngroup seed offset).tid = none →
    (stealTask groups ngroup seed offset).reads.Perm (List.range ngroup.toNat) ∧
      ∀ i < ngroup.toNat, ∀ g, groups i = some g → g.rq = [] ∧ g.remoteRq = []

/-- The reduction of `s` modulo `2^64` does no harm: `_ngroup` is a power of two, or `s` does not
reach `2^64` during the scan. -/
def Unwrapped (ngroup seed offset : UInt64) : Prop :=
  ngroup.toNat ∣ 2 ^ 64 ∨ seed.toNat + (ngroup.toNat - 1) * offset.toNat < 2 ^ 64

/-! ## The loop -/

variable {groups : ℕ → Option GroupQueues} {ngroup offset s : UInt64} {k : ℕ}

/-- The loop without a find, one round at a time: the group of this round is missing or has empty
queues, and the rest of the loop finds nothing. -/
theorem stealLoop_succ (h : (stealLoop groups ngroup offset (k + 1) s).tid = none) :
    (groups (s % ngroup).toNat = none ∨ groups (s % ngroup).toNat = some ⟨[], []⟩) ∧
      stealLoop groups ngroup offset (k + 1) s =
        (stealLoop groups ngroup offset k (s + offset)).read (s % ngroup).toNat := by
  unfold stealLoop at h
  split at h
  · next hg => exact ⟨.inl hg, by simp only [stealLoop, hg]⟩
  · cases h
  · cases h
  · next hg => exact ⟨.inr hg, by simp only [stealLoop, hg]⟩

/-- A loop without a find reads the cells that a scan in strides of `offset` meets. -/
theorem reads_stealLoop (h : (stealLoop groups ngroup offset k s).tid = none) :
    (stealLoop groups ngroup offset k s).reads =
      visits (2 ^ 64) ngroup.toNat offset.toNat s.toNat k := by
  induction k generalizing s with
  | zero => rfl
  | succ k ih =>
    obtain ⟨-, he⟩ := stealLoop_succ h
    rw [he] at h ⊢
    have hs : s.toNat % 2 ^ 64 = s.toNat := Nat.mod_eq_of_lt s.toNat_lt
    rw [Conc.visits_succ, Stolen.read, ih h, UInt64.toNat_mod, UInt64.toNat_add, Conc.visits_mod,
      hs]

/-- A loop without a find has met only missing groups and empty queues. -/
theorem empty_of_stealLoop (h : (stealLoop groups ngroup offset k s).tid = none) {i : ℕ}
    (hi : i ∈ (stealLoop groups ngroup offset k s).reads) :
    groups i = none ∨ groups i = some ⟨[], []⟩ := by
  induction k generalizing s with
  | zero => cases hi
  | succ k ih =>
    obtain ⟨hg, he⟩ := stealLoop_succ h
    rw [he] at h hi
    rcases List.mem_cons.mp hi with rfl | hi
    · exact hg
    · exact ih h hi

/-- Where there are no groups, nothing is found. -/
theorem stealLoop_of_empty : (stealLoop (fun _ => none) ngroup offset k s).tid = none := by
  induction k generalizing s with
  | zero => rfl
  | succ k ih => exact ih

/-! ## Covering all groups -/

variable {seed : UInt64}

/-- A scan covers all groups exactly when the strides of `s` meet every index once. -/
theorem coversAll_iff_visits (hn : ngroup ≠ 0) : CoversAll ngroup seed offset ↔
    (visits (2 ^ 64) ngroup.toNat offset.toNat seed.toNat ngroup.toNat).Perm
      (List.range ngroup.toNat) := by
  simp only [CoversAll, stealTask, if_neg hn]
  constructor
  · intro h
    have hnone : (stealLoop (fun _ => none) ngroup offset ngroup.toNat seed).tid = none :=
      stealLoop_of_empty
    rw [← reads_stealLoop hnone]
    exact (h _ hnone).1
  · intro hp groups hnone
    have hreads := reads_stealLoop hnone
    rw [← hreads] at hp
    refine ⟨hp, fun i hi g hg => ?_⟩
    have hm := hp.mem_iff.mpr (List.mem_range.mpr hi)
    rcases empty_of_stealLoop hnone hm with h | h
    · rw [h] at hg
      cases hg
    · rw [h] at hg
      cases hg
      exact ⟨rfl, rfl⟩

/-- **Stealing covers all groups** when the counter `s` does not wrap, or wraps at a multiple of
`_ngroup`; and it does not when `s` wraps otherwise, at least as long as the offset is small enough
that `s` wraps at most once in a scan.

**Proof sketch.** A scan that finds nothing meets the cells of a ring in strides of `offset`, its
counter kept modulo `2^64`; the rest are the facts about such strides. -/
theorem coversAll (hn : ngroup ≠ 0) (ho : offset.toNat.Coprime ngroup.toNat) :
    (Unwrapped ngroup seed offset → CoversAll ngroup seed offset) ∧
      ((ngroup.toNat - 1) * offset.toNat < 2 ^ 64 →
        CoversAll ngroup seed offset → Unwrapped ngroup seed offset) := by
  have hn' : 0 < ngroup.toNat := by
    by_contra h
    exact hn (UInt64.toNat_inj.mp (by simpa using Nat.eq_zero_of_not_pos h))
  rw [coversAll_iff_visits hn]
  constructor
  · rintro (hd | hs)
    · exact Conc.visits_perm_of_dvd ho hd
    · exact Conc.visits_perm_of_lt ho hs
  · intro hw hp
    have hnd := hp.nodup_iff.mpr List.nodup_range
    exact Conc.dvd_or_lt_of_visits_nodup ho hn' seed.toNat_lt hw hnd

/-- Three groups and a small seed. -/
theorem coversAll_three : CoversAll 3 5 2 :=
  (coversAll (by decide) (by decide)).1 (.inr (by decide))

/-- With three groups, the seed `2^64 - 2` and the offset `1` the indices read are `2`, `0` and `0`:
a bthread in the queue of group `1` is not found. -/
theorem not_coversAll : (1 : UInt64).toNat.Coprime (3 : UInt64).toNat ∧
    ¬CoversAll 3 18446744073709551614 1 := by
  refine ⟨by decide, fun h => ?_⟩
  have hq := (h (fun i => if i = 1 then some ⟨[7], []⟩ else none) (by decide)).2 1 (by decide)
    ⟨[7], []⟩ rfl
  exact absurd hq.1 (by decide)

end Bthread
