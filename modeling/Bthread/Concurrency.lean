import Bthread.Workers

set_option relaxedAutoImplicit false
set_option autoImplicit false

/-!
# `bthread_setconcurrency`

The number of workers that is asked for and the number that exists, in `bthread.cpp`: one call
after the other.

## Main definitions

* `Bthread.Process` — the flags and the global `TaskControl`.
* `Bthread.bthreadSetconcurrency`, `Bthread.bthreadGetconcurrency`.
* `Bthread.KeepsContract` — the contract in `bthread.h`.

## Main results

* `Bthread.setconcurrency_contract_iff` — when a call keeps the contract.
-/

namespace Bthread

/-- `BTHREAD_MIN_CONCURRENCY` and `BTHREAD_MAX_CONCURRENCY`. -/
structure Limits where
  /-- `BTHREAD_MIN_CONCURRENCY`. -/
  min : ℤ
  /-- `BTHREAD_MAX_CONCURRENCY`. -/
  max : ℤ

/-- The globals of `bthread.cpp`. -/
structure Process where
  /-- `FLAGS_bthread_concurrency`. -/
  concurrency : ℤ
  /-- `FLAGS_bthread_min_concurrency`. -/
  minConcurrency : ℤ := 0
  /-- `never_set_bthread_concurrency`. -/
  neverSet : Bool := true
  /-- `g_task_control`. -/
  control : Option TaskControl := none
  deriving DecidableEq

/-- The results of `bthread_setconcurrency`: `0`, `EINVAL` or `EPERM`. -/
inductive SetResult
  | ok
  | einval
  | eperm
  deriving DecidableEq

/-- `bthread_getconcurrency()`. -/
def bthreadGetconcurrency (p : Process) : ℤ := p.concurrency

/-- The number of worker threads. -/
def Process.workers (p : Process) : ℕ := (p.control.map (·.created)).getD 0

/-- `bthread_setconcurrency(num)`; `grow` and `create` are those of `add_workers`. -/
def bthreadSetconcurrency (l : Limits) (grow : Bool) (create : ℕ → Bool) (num : ℤ) (p : Process) :
    SetResult × Process :=
  if num < l.min ∨ l.max < num then (.einval, p)
  else if 0 < p.minConcurrency then
    if num < p.minConcurrency then (.einval, p)
    else (.ok, { p with neverSet := false, concurrency := num })
  else
    match p.control with
    | some c =>
      if num < c.concurrency then (.eperm, p)
      else if num = c.concurrency then (.ok, p)
      else
        -- under `g_task_control_mutex`; a flag that differs is set right first
        let flag : ℤ := if p.concurrency ≠ c.concurrency then c.concurrency else p.concurrency
        if flag < num then
          let r := c.addWorkers grow create (num - flag)
          (.ok, { p with concurrency := flag + r.1, control := some r.2 })
        else (if num = flag then .ok else .eperm, { p with concurrency := flag })
    | none =>
      if p.neverSet then (.ok, { p with neverSet := false, concurrency := num })
      else if p.concurrency < num then (.ok, { p with concurrency := num })
      else (.ok, p)

/-- The contract of a call: after success `bthread_getconcurrency()` returns `num`; after an error
it returns what it did before, and the workers are the same. -/
def KeepsContract (l : Limits) (grow : Bool) (create : ℕ → Bool) (num : ℤ) (p : Process) : Prop :=
  let r := bthreadSetconcurrency l grow create num p
  (r.1 = .ok → bthreadGetconcurrency r.2 = num) ∧
    (r.1 ≠ .ok → bthreadGetconcurrency r.2 = bthreadGetconcurrency p ∧ r.2.workers = p.workers)

/-- When the contract is kept: `num` is out of range or workers are created on demand; before the
start, it is the first call or `num` is not below the flag; after the start, `num` is refused, or
is the number of workers and the value of the flag, or every worker asked for can be created. -/
def CanSet (l : Limits) (grow : Bool) (create : ℕ → Bool) (num : ℤ) (p : Process) : Prop :=
  num < l.min ∨ l.max < num ∨ 0 < p.minConcurrency ∨
    match p.control with
    | none => p.neverSet = true ∨ p.concurrency ≤ num
    | some c => num < c.concurrency ∨ (num = c.concurrency ∧ p.concurrency = num) ∨
        (c.concurrency < num ∧ grow = true ∧ ∀ i < (num - c.concurrency).toNat, create i = true)

/-- **The contract of `bthread_setconcurrency`** is kept exactly under `CanSet`.

**Proof sketch.** By the branches of the function. After the start the flag ends up as the number
of workers plus those created, which is `num` exactly when no creation fails. -/
theorem setconcurrency_contract_iff (l : Limits) (grow : Bool) (create : ℕ → Bool) (num : ℤ)
    (p : Process) : KeepsContract l grow create num p ↔ CanSet l grow create num p := by
  unfold KeepsContract CanSet bthreadSetconcurrency bthreadGetconcurrency
  by_cases hr : num < l.min ∨ l.max < num
  · simp only [if_pos hr]
    grind
  rw [if_neg hr]
  by_cases hm : 0 < p.minConcurrency
  · rw [if_pos hm]
    by_cases hn : num < p.minConcurrency
    · simp [hn, hm]
    · simp [hn, hm]
  rw [if_neg hm]
  cases hc : p.control with
  | none =>
    simp only
    grind
  | some c =>
    simp only
    by_cases h1 : num < c.concurrency
    · simp [h1]
    by_cases h2 : num = c.concurrency
    · simp only [h2, lt_self_iff_false, if_false, if_true]
      grind
    have h3 : (c.concurrency : ℤ) < num := by omega
    have hflag : (if p.concurrency ≠ c.concurrency then (c.concurrency : ℤ) else p.concurrency) =
        c.concurrency := by
      split_ifs with h
      · rfl
      · exact not_not.mp h
    simp only [h1, h2, if_false, hflag, h3, if_true, TaskControl.addWorkers_fst]
    have hs := TaskControl.successes_eq_iff create (num - c.concurrency).toNat 0
    simp only [Nat.zero_add] at hs
    have hle := TaskControl.successes_le create (num - c.concurrency).toNat 0
    cases grow with
    | false => simp; grind
    | true => simp; grind

/-- The call before the start that asks for less than the one before it reports success and changes
nothing. -/
theorem not_keepsContract_lower :
    ¬KeepsContract ⟨4, 1024⟩ true (fun _ => true) 8
      (bthreadSetconcurrency ⟨4, 1024⟩ true (fun _ => true) 10 { concurrency := 9 }).2 := by
  unfold KeepsContract
  decide

end Bthread
