import Mathlib.Data.List.Basic
import Mathlib.Data.List.Nodup
import Mathlib.Data.List.ReduceOption
import Mathlib.Algebra.Order.Ring.Int
import Bthread.Lib.Machine

set_option relaxedAutoImplicit false
set_option autoImplicit false

/-!
# Worker threads of a `TaskControl`

`TaskControl::init`, `add_workers` and `stop_and_join` on the vector of worker threads. What the
memory does not decide, whether the vector can grow, the timer thread exists and `pthread_create`
succeeds, is given by an oracle. Created threads are named `0`, `1`, … in the order of their
creation.

## Main definitions

* `Bthread.TaskControl` — the worker threads of a `TaskControl`, and which of them were joined.
* `Bthread.TaskControl.init`, `Bthread.TaskControl.addWorkers`, `Bthread.TaskControl.stopAndJoin`.
* `Bthread.TaskControl.life` — the runs of a `TaskControl`.

## Main results

* `Bthread.TaskControl.addWorkers_eq` — the effect of `add_workers`.
* `Bthread.TaskControl.addWorkers_consistent` — the vector, `_concurrency` and the result agree.
* `Bthread.TaskControl.joinedExactly_of_stopsOnce` — when workers are joined exactly.
-/

namespace Bthread

/-- A worker thread, by the order of creation. -/
abbrev ThreadId := ℕ

/-- The worker threads of a `TaskControl`. -/
structure TaskControl where
  /-- `_concurrency`. -/
  concurrency : ℕ := 0
  /-- `_workers`; `none` is an entry that `pthread_create` never filled. -/
  workers : List (Option ThreadId) := []
  /-- The number of threads created so far. -/
  created : ℕ := 0
  /-- The entries given to `interrupt_pthread` so far. -/
  interrupted : List (Option ThreadId) := []
  /-- The entries given to `pthread_join` so far. -/
  joined : List (Option ThreadId) := []
  /-- How many threads had been created when `stop_and_join` was called last. -/
  stoppedAt : ℕ := 0
  deriving DecidableEq

namespace TaskControl

/-- `std::vector::resize` of `_workers`. -/
def resizeWorkers (n : ℕ) (c : TaskControl) : TaskControl :=
  { c with workers := c.workers.take n ++ List.replicate (n - c.workers.length) none }

/-- `pthread_create(&_workers[i], NULL, worker_thread, this)`, when it succeeds. -/
def createWorker (i : ℕ) (c : TaskControl) : TaskControl :=
  { c with workers := c.workers.set i (some c.created), created := c.created + 1 }

/-- The loop of `add_workers`; `create i` says whether its `i`-th `pthread_create` succeeds, and
`num` is how often it still goes round. -/
def addLoop (create : ℕ → Bool) (oldConcurrency : ℕ) : (num i : ℕ) → TaskControl → TaskControl
  | 0, _, c => c
  | num + 1, i, c =>
    let c := { c with concurrency := c.concurrency + 1 }
    if create i then addLoop create oldConcurrency num (i + 1) (c.createWorker (i + oldConcurrency))
    else { c with concurrency := c.concurrency - 1 }

/-- `TaskControl::add_workers(num)`; `grow` says whether the vector can be resized. -/
def addWorkers (grow : Bool) (create : ℕ → Bool) (num : ℤ) (c : TaskControl) : ℤ × TaskControl :=
  if num ≤ 0 then (0, c)
  else if grow then
    let c₁ := c.resizeWorkers (c.concurrency + num.toNat)
    let c₂ := addLoop create c.concurrency num.toNat 0 c₁
    let c₃ := c₂.resizeWorkers c₂.concurrency
    ((c₃.concurrency : ℤ) - c.concurrency, c₃)
  else (0, c)

/-- The loop of `TaskControl::init`, from `_workers[i]` on. -/
def initLoop (create : ℕ → Bool) : (num i : ℕ) → TaskControl → Bool × TaskControl
  | 0, _, c => (true, c)
  | num + 1, i, c =>
    if create i then initLoop create num (i + 1) (c.createWorker i) else (false, c)

/-- `TaskControl::init(concurrency)`: `true` for the result `0`, `false` for `-1`. `timer` says
whether there is a global timer thread. -/
def init (timer : Bool) (create : ℕ → Bool) (concurrency : ℤ) (c : TaskControl) :
    Bool × TaskControl :=
  if c.concurrency ≠ 0 then (false, c)
  else if concurrency ≤ 0 then (false, c)
  else
    let c := { c with concurrency := concurrency.toNat }
    if timer then initLoop create concurrency.toNat 0 (c.resizeWorkers concurrency.toNat)
    else (false, c)

/-- The part of `TaskControl::stop_and_join` on the worker threads. -/
def stopAndJoin (c : TaskControl) : TaskControl :=
  { c with
    interrupted := c.interrupted ++ c.workers
    joined := c.joined ++ c.workers
    stoppedAt := c.created }

/-! ## `add_workers` -/

/-- How many of the next `num` calls of `pthread_create` succeed before one fails. -/
def successes (create : ℕ → Bool) : (num i : ℕ) → ℕ
  | 0, _ => 0
  | num + 1, i => if create i then successes create num (i + 1) + 1 else 0

/-- No more threads are created than asked for. -/
theorem successes_le (create : ℕ → Bool) (num i : ℕ) : successes create num i ≤ num := by
  induction num generalizing i with
  | zero => exact le_rfl
  | succ num ih =>
    simp only [successes]
    split
    · exact Nat.succ_le_succ (ih (i + 1))
    · exact Nat.zero_le _

/-- All threads are created exactly when no creation fails. -/
theorem successes_eq_iff (create : ℕ → Bool) (num i : ℕ) :
    successes create num i = num ↔ ∀ j < num, create (i + j) = true := by
  induction num generalizing i with
  | zero => simp [successes]
  | succ num ih =>
    simp only [successes]
    by_cases hc : create i = true
    · rw [if_pos hc, Nat.add_right_cancel_iff, ih]
      constructor
      · rintro h (_ | j) hj
        · exact hc
        · rw [show i + (j + 1) = i + 1 + j by omega]
          exact h j (by omega)
      · intro h j hj
        rw [show i + 1 + j = i + (j + 1) by omega]
        exact h (j + 1) (by omega)
    · rw [if_neg hc]
      constructor
      · intro h; omega
      · intro h; exact absurd (h 0 (by omega)) hc

/-- The loop of `add_workers` counts the threads it creates. -/
theorem addLoop_concurrency (create : ℕ → Bool) (old num i : ℕ) (c : TaskControl) :
    (addLoop create old num i c).concurrency = c.concurrency + successes create num i := by
  induction num generalizing i c with
  | zero => rfl
  | succ num ih =>
    simp only [addLoop, successes]
    split
    · rw [ih]; simp only [createWorker]; omega
    · simp

/-- `add_workers` returns the number of threads created. -/
theorem addWorkers_fst (grow : Bool) (create : ℕ → Bool) (num : ℤ) (c : TaskControl) :
    (addWorkers grow create num c).1 = if grow then (successes create num.toNat 0 : ℤ) else 0 := by
  unfold addWorkers
  split_ifs with hn
  · simp [Int.toNat_of_nonpos hn, successes]
  · rfl
  · simp only [resizeWorkers, addLoop_concurrency]
    omega
  · rfl

/-- Filling the next entry of the vector. -/
theorem set_append_replicate (xs : List (Option ThreadId)) {n : ℕ} {x : Option ThreadId} :
    (xs ++ List.replicate (n + 1) none).set xs.length x =
      (xs ++ [x]) ++ List.replicate n none := by
  simp [List.replicate_succ]

/-- The loop of `add_workers` fills the entries of the new vector in order. -/
theorem addLoop_eq (create : ℕ → Bool) (old num i : ℕ) (c : TaskControl)
    (xs : List (Option ThreadId)) (hx : xs.length = i + old)
    (hw : c.workers = xs ++ List.replicate num none) :
    addLoop create old num i c =
      { c with
        concurrency := c.concurrency + successes create num i
        workers := xs ++ ((List.range' c.created (successes create num i)).map some ++
          List.replicate (num - successes create num i) none)
        created := c.created + successes create num i } := by
  induction num generalizing i c xs with
  | zero =>
    obtain ⟨n, ws, k, l, j, s⟩ := c
    simp_all [addLoop, successes]
  | succ num ih =>
    simp only [addLoop, successes]
    by_cases hc : create i = true
    · rw [if_pos hc, if_pos hc, ih (i + 1) _ (xs ++ [some c.created]) (by simp [hx]; omega)
        (by simp only [createWorker, hw, ← hx]; exact set_append_replicate _)]
      simp only [createWorker, TaskControl.mk.injEq, and_true, List.append_assoc]
      refine ⟨by omega, ?_, by omega⟩
      rw [List.range'_succ]
      simp
    · simp [hc, ← hw]

/-- `add_workers` when it gets as far as its loop. -/
theorem addWorkers_pos (create : ℕ → Bool) {num : ℤ} (hn : 0 < num) (c : TaskControl)
    (hc : c.workers.length ≤ c.concurrency) :
    addWorkers true create num c = ((successes create num.toNat 0 : ℤ),
      { c with
        concurrency := c.concurrency + successes create num.toNat 0
        workers := c.workers ++ List.replicate (c.concurrency - c.workers.length) none ++
          (List.range' c.created (successes create num.toNat 0)).map some
        created := c.created + successes create num.toNat 0 }) := by
  have hle := successes_le create num.toNat 0
  have hloop := addLoop_eq create c.concurrency num.toNat 0
    (c.resizeWorkers (c.concurrency + num.toNat))
    (c.workers ++ List.replicate (c.concurrency - c.workers.length) none)
    (by simp; omega)
    (by
      simp only [resizeWorkers, List.append_assoc, List.replicate_append_replicate]
      rw [List.take_of_length_le (by omega)]
      congr 2; omega)
  simp only [addWorkers, if_neg (Int.not_le.mpr hn), if_true, hloop]
  simp only [resizeWorkers, Prod.mk.injEq, TaskControl.mk.injEq, and_true]
  refine ⟨by omega, ?_⟩
  rw [← List.append_assoc, List.take_left' (by simp; omega)]
  simp
  omega

/-- **`add_workers`**: the vector keeps its entries and grows by the threads that were created, and
`_concurrency` and the result count them. -/
theorem addWorkers_eq (create : ℕ → Bool) (num : ℤ) (c : TaskControl)
    (hc : c.workers.length = c.concurrency) :
    addWorkers true create num c = ((successes create num.toNat 0 : ℤ),
      { c with
        concurrency := c.concurrency + successes create num.toNat 0
        workers := c.workers ++ (List.range' c.created (successes create num.toNat 0)).map some
        created := c.created + successes create num.toNat 0 }) := by
  by_cases hn : num ≤ 0
  · have : num.toNat = 0 := by omega
    simp [addWorkers, hn, this, successes]
  · rw [addWorkers_pos create (Int.not_le.mp hn) c hc.le]
    simp [hc]

/-- The `TaskControl` `c'` is `c` with `k` more worker threads, which are the last entries of the
vector. -/
structure Added (c : TaskControl) (k : ℕ) (c' : TaskControl) : Prop where
  created : c'.created = c.created + k
  concurrency : c'.concurrency = c.concurrency + k
  length : c'.workers.length = c.concurrency + k
  kept : c'.workers.take c.concurrency = c.workers
  new : c'.workers.drop c.concurrency = (List.range' c.created k).map some

/-- **`add_workers` is consistent under partial failure**: it returns the number of threads it has
created, at most `num`, and `_concurrency` and the vector agree with it; if the vector cannot grow,
nothing changes. -/
theorem addWorkers_consistent (grow : Bool) (create : ℕ → Bool) (num : ℤ) (c : TaskControl)
    (hc : c.workers.length = c.concurrency) :
    ∃ k : ℕ, (c.addWorkers grow create num).1 = k ∧ (k : ℤ) ≤ max num 0 ∧
      Added c k (c.addWorkers grow create num).2 ∧
        (grow = false → (c.addWorkers grow create num).2 = c) := by
  cases grow with
  | false =>
    have h : c.addWorkers false create num = (0, c) := by
      unfold addWorkers
      split <;> rfl
    rw [h]
    refine ⟨0, rfl, le_max_right num 0, ⟨rfl, rfl, hc, ?_, ?_⟩, fun _ => rfl⟩
    · exact List.take_of_length_le hc.le
    · exact List.drop_of_length_le hc.le
  | true =>
    have hle := successes_le create num.toNat 0
    rw [addWorkers_eq create num c hc]
    refine ⟨successes create num.toNat 0, rfl, by omega, ⟨rfl, rfl, ?_, ?_, ?_⟩, by simp⟩
    · simp [hc]
    · rw [← hc]
      exact List.take_left
    · rw [← hc]
      exact List.drop_left

/-- Of three more workers, the creation of the second fails. -/
theorem addWorkers_consistent_partial : ∃ c c' : TaskControl,
    c.addWorkers true (· < 1) 3 = (1, c') ∧ ∃ k : ℕ, (1 : ℤ) = k ∧ (k : ℤ) ≤ max 3 0 ∧
      Added c k c' ∧ (true = false → c' = c) :=
  ⟨⟨2, [some 0, some 1], 2, [], [], 0⟩, _, rfl,
    addWorkers_consistent true (· < 1) 3 ⟨2, [some 0, some 1], 2, [], [], 0⟩ rfl⟩

/-! ## The life of a `TaskControl` -/

/-- What can happen to a `TaskControl`: the calls made on it, with what the memory does not decide,
`bthread_stop_world`, and its destruction. -/
inductive LifeStep
  | init (timer : Bool) (create : ℕ → Bool) (concurrency : ℤ)
  | addWorkers (grow : Bool) (create : ℕ → Bool) (num : ℤ)
  | stopWorld
  | destroy

/-- The `TaskControl` after a step of its life; `bthread_stop_world` and the destructor both call
`stop_and_join`. -/
def lifeStep (c : TaskControl) : LifeStep → TaskControl
  | .init timer create concurrency => (c.init timer create concurrency).2
  | .addWorkers grow create num => (c.addWorkers grow create num).2
  | .stopWorld | .destroy => c.stopAndJoin

/-- **The runs of a `TaskControl`.** -/
def life : Conc.Machine TaskControl LifeStep where
  init c := c = {}
  next c a := some (c.lifeStep a)

/-- Workers are joined exactly: interrupted and joined were threads that exist, none of them twice,
and all that existed when `stop_and_join` was called. -/
def JoinedExactly (c : TaskControl) : Prop :=
  c.interrupted = c.joined ∧ c.joined.Nodup ∧ (∀ w ∈ c.joined, ∃ t < c.created, w = some t) ∧
    ∀ t < c.stoppedAt, some t ∈ c.joined

instance (c : TaskControl) : Decidable c.JoinedExactly := by
  unfold JoinedExactly; infer_instance

/-- `stop_and_join` is called when every entry of `_workers` was filled, and no worker was joined
before. -/
def StopsOnce (c : TaskControl) : LifeStep → Prop
  | .stopWorld | .destroy => none ∉ c.workers ∧ c.joined = []
  | _ => True

/-- The entries of `_workers` are the created threads in order, with unfilled entries in between,
and the first of them were joined. -/
structure Ordered (c : TaskControl) : Prop where
  length : c.workers.length ≤ c.concurrency
  workers : c.workers.reduceOption = List.range c.created
  interrupted : c.interrupted = c.joined
  joined : c.joined = (List.range c.stoppedAt).map some
  stoppedAt : c.stoppedAt ≤ c.created

/-- Filled entries. -/
theorem reduceOption_map_some (xs : List ThreadId) : (xs.map some).reduceOption = xs := by
  simp [List.reduceOption, List.filterMap_map]

/-- The loop of `init` fills the entries in order. -/
theorem initLoop_ordered (create : ℕ → Bool) (num i : ℕ) (c : TaskControl) (h : c.Ordered)
    (hi : c.created = i)
    (hw : c.workers = (List.range i).map some ++ List.replicate num none) :
    (initLoop create num i c).2.Ordered := by
  induction num generalizing i c with
  | zero => exact h
  | succ num ih =>
    simp only [initLoop]
    split
    · have hw' : (c.createWorker i).workers =
          (List.range (i + 1)).map some ++ List.replicate num none := by
        have := set_append_replicate ((List.range i).map some) (n := num) (x := some i)
        simp only [List.length_map, List.length_range] at this
        simp [createWorker, hw, hi, this, List.range_succ]
      refine ih (i + 1) _ ⟨?_, ?_, h.interrupted, h.joined, ?_⟩ (by simp [createWorker, hi]) hw'
      · simpa [createWorker] using h.length
      · rw [hw']; simp [createWorker, hi, List.reduceOption_append, reduceOption_map_some]
      · exact h.stoppedAt.trans (Nat.le_succ _)
    · exact h

/-- The loop of `init` does not change `_concurrency`. -/
theorem initLoop_concurrency (create : ℕ → Bool) (num i : ℕ) (c : TaskControl) :
    (initLoop create num i c).2.concurrency = c.concurrency := by
  induction num generalizing i c with
  | zero => rfl
  | succ num ih =>
    simp only [initLoop]
    split
    · rw [ih]; rfl
    · rfl

/-- A vector without unfilled entries. -/
theorem map_some_reduceOption {xs : List (Option ThreadId)} (h : none ∉ xs) :
    xs.reduceOption.map some = xs := by
  induction xs with
  | nil => rfl
  | cons x xs ih =>
    obtain ⟨hx, hxs⟩ : none ≠ x ∧ none ∉ xs := by simpa using h
    cases x with
    | none => exact absurd rfl hx
    | some t => simp [List.reduceOption_cons_of_some, ih hxs]

/-- A `TaskControl` that was not started has no workers. -/
def Unstarted (c : TaskControl) : Prop := c.concurrency = 0 → c.workers = [] ∧ c.created = 0

/-- `init` keeps the order. -/
theorem init_ordered (timer : Bool) (create : ℕ → Bool) (n : ℤ) {c : TaskControl}
    (h : c.Ordered) (hu : c.Unstarted) :
    (c.init timer create n).2.Ordered ∧ (c.init timer create n).2.Unstarted := by
  unfold init
  by_cases hc : c.concurrency = 0
  · obtain ⟨hw, hk⟩ := hu hc
    by_cases hn : n ≤ 0
    · simpa [hc, hn] using ⟨h, hu⟩
    · have ho : ({ c with concurrency := n.toNat } : TaskControl).Ordered :=
        ⟨by simp [hw], h.workers, h.interrupted, h.joined, h.stoppedAt⟩
      have hpos : 0 < n.toNat := by omega
      cases timer with
      | false =>
        simp only [hc, hn, ne_eq, not_true_eq_false, if_false, Bool.false_eq_true]
        exact ⟨ho, fun h0 => absurd h0 (by simp; omega)⟩
      | true =>
        simp only [hc, hn, ne_eq, not_true_eq_false, if_false, if_true]
        have hr : (resizeWorkers n.toNat { c with concurrency := n.toNat }).Ordered :=
          ⟨by simp [resizeWorkers, hw], by simp [resizeWorkers, hw, hk], h.interrupted, h.joined,
            h.stoppedAt⟩
        refine ⟨initLoop_ordered create n.toNat 0 _ hr (by simpa [resizeWorkers] using hk)
          (by simp [resizeWorkers, hw]), fun h0 => ?_⟩
        rw [initLoop_concurrency] at h0
        simp only [resizeWorkers] at h0
        omega
  · simpa [hc] using ⟨h, hu⟩

/-- `add_workers` keeps the order. -/
theorem addWorkers_ordered (grow : Bool) (create : ℕ → Bool) (n : ℤ) {c : TaskControl}
    (h : c.Ordered) (hu : c.Unstarted) :
    (c.addWorkers grow create n).2.Ordered ∧ (c.addWorkers grow create n).2.Unstarted := by
  by_cases hn : 0 < n ∧ grow = true
  · obtain ⟨hn, rfl⟩ := hn
    rw [addWorkers_pos create hn c h.length]
    have hk := h.workers
    refine ⟨⟨?_, ?_, h.interrupted, h.joined, h.stoppedAt.trans (Nat.le_add_right _ _)⟩, ?_⟩
    · have := h.length
      simp only [List.length_append, List.length_replicate, List.length_map, List.length_range']
      omega
    · simp only [List.reduceOption_append, List.reduceOption_replicate_none, hk,
        reduceOption_map_some, List.append_nil]
      rw [List.range_eq_range', List.range_eq_range', ← List.range'_append_1]
      simp
    · intro h0
      simp only [Nat.add_eq_zero_iff] at h0
      obtain ⟨hw, hz⟩ := hu h0.1
      simp [h0, hw, hz]
  · have : c.addWorkers grow create n = (0, c) := by
      unfold addWorkers
      split_ifs with h1 h2
      · rfl
      · exact absurd ⟨by omega, h2⟩ hn
      · rfl
    rw [this]
    exact ⟨h, hu⟩

/-- Stopping once, with every entry filled, keeps the order. -/
theorem stopAndJoin_ordered {c : TaskControl} (h : c.Ordered) (hn : none ∉ c.workers)
    (hj : c.joined = []) : c.stopAndJoin.Ordered := by
  have hw : c.workers = (List.range c.created).map some := by
    rw [← h.workers]
    exact (map_some_reduceOption hn).symm
  exact ⟨h.length, h.workers, by simp [stopAndJoin, h.interrupted],
    by simp [stopAndJoin, hj, hw], le_rfl⟩

/-- **Workers are joined exactly**, in every run in which `stop_and_join` is only called with all
entries of `_workers` filled and before any worker was joined.

**Proof sketch.** The entries are the created threads in order, with unfilled entries in between;
without these, `stop_and_join` goes over exactly the created threads. -/
theorem joinedExactly_of_stopsOnce {c : TaskControl} (hc : life.ReachableIf StopsOnce c) :
    c.JoinedExactly := by
  have h : c.Ordered ∧ c.Unstarted := by
    refine hc.invariant (I := fun c => c.Ordered ∧ c.Unstarted) ?_ ?_
    · rintro _ rfl
      exact ⟨⟨by simp, by simp, rfl, by simp, le_rfl⟩, fun _ => ⟨rfl, rfl⟩⟩
    · rintro c a c' - ⟨h, hu⟩ ha hs
      obtain rfl : c.lifeStep a = c' := by simpa [life] using hs
      cases a with
      | init timer create n => exact init_ordered timer create n h hu
      | addWorkers grow create n => exact addWorkers_ordered grow create n h hu
      | stopWorld | destroy => exact ⟨stopAndJoin_ordered h ha.1 ha.2, hu⟩
  obtain ⟨ho, -⟩ := h
  refine ⟨ho.interrupted, ?_, ?_, ?_⟩
  · rw [ho.joined]
    exact List.nodup_range.map (Option.some_injective _)
  · intro w hw
    rw [ho.joined] at hw
    obtain ⟨t, ht, rfl⟩ := List.mem_map.mp hw
    exact ⟨t, (List.mem_range.mp ht).trans_le ho.stoppedAt, rfl⟩
  · intro t ht
    rw [ho.joined]
    exact List.mem_map_of_mem (List.mem_range.mpr ht)

/-- The workers of three eager creations and one more are joined exactly. -/
theorem joinedExactly_stopWorld :
    (((({} : TaskControl).lifeStep (.init true (fun _ => true) 3)).lifeStep
      (.addWorkers true (fun _ => true) 1)).lifeStep .stopWorld).JoinedExactly := by
  refine joinedExactly_of_stopsOnce (.step (a := .stopWorld) (.step
    (a := .addWorkers true (fun _ => true) 1) (.step (a := .init true (fun _ => true) 3)
      (.of_init rfl) trivial rfl) trivial rfl) ?_ rfl)
  exact ⟨by decide, by decide⟩

/-- **A failing `init` is followed by joins of threads that do not exist**: the second of three
creations fails, and the destructor goes over all three entries. -/
theorem not_joinedExactly_destroy :
    ¬∀ c : TaskControl, life.Reachable c → c.JoinedExactly := by
  intro h
  have h₀ : life.Reachable {} := .of_init rfl
  have h₁ := h₀.step (a := LifeStep.init true (· < 1) 3) rfl
  have hj := h _ (h₁.step (a := LifeStep.destroy) rfl)
  revert hj
  decide

end TaskControl

end Bthread
