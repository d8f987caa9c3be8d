import Mathlib.Algebra.BigOperators.Group.Finset.Piecewise
import Mathlib.Tactic.Abel

set_option relaxedAutoImplicit false
set_option autoImplicit false

/-!
# Ledgers

A ledger records what clocks have charged to accounts: each entry is a stretch of time, by one
clock, charged to one account. The library relates the sums over a ledger by account, by clock and
in all, and says what it means that a clock has charged its time without gaps and once.

## Main definitions

* `Conc.Entry`, `Conc.Ledger` — ledgers, newest entry first.
* `Conc.Ledger.total` — the sum over the entries that have a property.
* `Conc.Ledger.Chained` — the entries of a clock follow each other.

## Main results

* `Conc.Ledger.sum_total` — the totals of all clocks add up to the total.
* `Conc.Ledger.Chained.total_eq` — a clock has charged all of its time.
-/

namespace Conc

/-- The time from `start` to `stop`, by the clock `clock`, charged to `account`. -/
structure Entry (κ α R : Type*) where
  /-- Whose time it is. -/
  clock : κ
  /-- To whom it is charged. -/
  account : α
  /-- From when. -/
  start : R
  /-- Until when. -/
  stop : R
  deriving DecidableEq, Repr

/-- The amount of an entry. -/
def Entry.amount {κ α R : Type*} [Sub R] (e : Entry κ α R) : R := e.stop - e.start

/-- A ledger, newest entry first. -/
abbrev Ledger (κ α R : Type*) := List (Entry κ α R)

namespace Ledger

variable {κ α R M : Type*} {l : Ledger κ α R} {e : Entry κ α R}

section Total

variable [AddCommMonoid M] (f : Entry κ α R → M) (p q : Entry κ α R → Prop) [DecidablePred p]
  [DecidablePred q]

/-- The sum of `f` over the entries that have property `p`. -/
def total (l : Ledger κ α R) : M := ((l.filter p).map f).sum

@[simp] theorem total_nil : total f p ([] : Ledger κ α R) = 0 := rfl

/-- An entry adds its amount if it has the property. -/
theorem total_cons : total f p (e :: l) = (if p e then f e else 0) + total f p l := by
  by_cases h : p e <;> simp [total, h]

variable {p q}

/-- The total depends on which entries have the property. -/
theorem total_congr (h : ∀ e ∈ l, p e ↔ q e) : total f p l = total f q l := by
  have hf : l.filter (fun e => decide (p e)) = l.filter (fun e => decide (q e)) :=
    List.filter_congr fun e he => by simpa using h e he
  rw [total, total, hf]

variable (p q)

/-- A total is split by a second property. -/
theorem total_split :
    total f p l = total f (fun e => p e ∧ q e) l + total f (fun e => p e ∧ ¬q e) l := by
  induction l with
  | nil => simp
  | cons e l ih =>
    simp only [total_cons, ih]
    by_cases hp : p e <;> by_cases hq : q e <;> simp [hp, hq, add_assoc, add_left_comm]

/-- **The totals of all clocks add up**: summed over clocks that cover the ledger, they are the
total over all entries.

**Proof sketch.** Induction on the ledger: a new entry adds to the total of its own clock only. -/
theorem sum_total [DecidableEq κ] {s : Finset κ} (h : ∀ e ∈ l, e.clock ∈ s) :
    ∑ k ∈ s, total f (fun e => e.clock = k ∧ p e) l = total f p l := by
  induction l with
  | nil => simp
  | cons e l ih =>
    have he : e.clock ∈ s := h e (by simp)
    have hl : ∀ d ∈ l, d.clock ∈ s := fun d hd => h d (by simp [hd])
    have hsum : ∑ k ∈ s, (if e.clock = k ∧ p e then f e else 0) = if p e then f e else 0 := by
      by_cases hp : p e <;> simp [hp, Finset.sum_ite_eq, he]
    simp only [total_cons, Finset.sum_add_distrib, ih hl, hsum]

/-- The number of all entries. -/
theorem total_one {N : Type*} [AddCommMonoidWithOne N] :
    total (fun _ => (1 : N)) (fun _ => True) l = l.length := by
  simp [total]

end Total

section Chained

variable [DecidableEq κ] {k : κ} {a b c : R}

/-- The entries of clock `k` follow each other from `a` to `b`, each starting where the one before
has stopped. -/
def Chained (k : κ) (a b : R) : Ledger κ α R → Prop
  | [] => a = b
  | e :: l => if e.clock = k then e.stop = b ∧ Chained k a e.start l else Chained k a b l

/-- The clock is read. -/
theorem Chained.cons (h : Chained k a b l) (he : e.clock = k) (hs : e.start = b) :
    Chained k a e.stop (e :: l) := by
  rw [Chained, if_pos he, hs]
  exact ⟨rfl, h⟩

/-- Another clock is read. -/
theorem Chained.cons_of_ne (h : Chained k a b l) (he : e.clock ≠ k) : Chained k a b (e :: l) := by
  rwa [Chained, if_neg he]

/-- **A clock has charged all of its time.** -/
theorem Chained.total_eq [AddCommGroup R] (h : Chained k a b l) :
    total Entry.amount (·.clock = k) l = b - a := by
  induction l generalizing b with
  | nil =>
    obtain rfl : a = b := h
    simp
  | cons e l ih =>
    rw [total_cons]
    unfold Chained at h
    by_cases he : e.clock = k
    · rw [if_pos he] at h ⊢
      rw [ih h.2, ← h.1, Entry.amount]
      abel
    · rw [if_neg he] at h ⊢
      rw [ih h, zero_add]

end Chained

end Ledger

end Conc
