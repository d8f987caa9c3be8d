import Mathlib.Logic.Function.Basic
import Mathlib.Data.Nat.ModEq

set_option relaxedAutoImplicit false
set_option autoImplicit false

/-!
# Memory of bytes

A memory gives a byte for each address; addresses wrap around. Numbers of several bytes lie in it
with the lowest byte first.

## Main definitions

* `Conc.Bytes`, `Conc.load`, `Conc.store` — a memory, and access to `n` bytes of it.
* `Conc.Apart` — two ranges of addresses have nothing in common.

## Main results

* `Conc.load_store`, `Conc.load_store_of_apart` — reading what was written, and what was not.
* `Conc.Apart.of_offset` — two parts of one range.
-/

namespace Conc

/-- A memory with addresses of `w` bits. -/
abbrev Bytes (w : ℕ) := BitVec w → BitVec 8

variable {w n k v : ℕ} {m m' : Bytes w} {a b x : BitVec w}

/-- The number in `n` bytes from `a` on. -/
def load (m : Bytes w) (a : BitVec w) : ℕ → ℕ
  | 0 => 0
  | n + 1 => (m a).toNat + 256 * load m (a + 1) n

/-- Write a number into `n` bytes from `a` on. -/
def store (m : Bytes w) (a : BitVec w) : ℕ → ℕ → Bytes w
  | 0, _ => m
  | n + 1, v => Function.update (store m (a + 1) n (v / 256)) a (BitVec.ofNat 8 v)

/-- `x` is one of the `n` addresses from `a` on. -/
def Within (a : BitVec w) (n : ℕ) (x : BitVec w) : Prop := ∃ i < n, x = a + BitVec.ofNat w i

/-- The `n` addresses from `a` on and the `k` addresses from `b` on have nothing in common. -/
def Apart (a : BitVec w) (n : ℕ) (b : BitVec w) (k : ℕ) : Prop :=
  ∀ x, Within a n x → ¬Within b k x

/-- The first address is in the range. -/
theorem Within.self : Within a (n + 1) a := ⟨0, by omega, by simp⟩

/-- The range without its first address. -/
theorem Within.succ (h : Within (a + 1) n x) : Within a (n + 1) x := by
  obtain ⟨i, hi, rfl⟩ := h
  refine ⟨i + 1, by omega, ?_⟩
  rw [BitVec.add_assoc, BitVec.ofNat_add, BitVec.add_comm (BitVec.ofNat w i)]
  rfl

/-- A range is in a longer one. -/
theorem Within.mono (h : Within a n x) (hk : n ≤ k) : Within a k x := by
  obtain ⟨i, hi, rfl⟩ := h
  exact ⟨i, by omega, rfl⟩

/-- Apartness is symmetric. -/
theorem Apart.symm (h : Apart a n b k) : Apart b k a n := fun x hb ha => h x ha hb

/-- A part of a range is in the range. -/
theorem Within.of_offset {i : ℕ} (h : Within (a + BitVec.ofNat w i) k x) (hn : i + k ≤ n) :
    Within a n x := by
  obtain ⟨j, hj, rfl⟩ := h
  exact ⟨i + j, by omega, by rw [BitVec.add_assoc, BitVec.ofNat_add]⟩

/-- The addresses of a short range are different. -/
theorem add_ofNat_inj {i j : ℕ} (hi : i < 2 ^ w) (hj : j < 2 ^ w)
    (h : a + BitVec.ofNat w i = a + BitVec.ofNat w j) : i = j := by
  have h := congrArg (fun y => (y - a).toNat) h
  simpa [BitVec.add_comm a, BitVec.add_sub_cancel, BitVec.toNat_ofNat, Nat.mod_eq_of_lt hi,
    Nat.mod_eq_of_lt hj] using h

/-- Addresses of a short range do not come round to its start. -/
theorem not_within_succ (hn : n < 2 ^ w) : ¬Within (a + 1) n a := by
  rintro ⟨i, hi, he⟩
  rw [BitVec.add_assoc, show (1 : BitVec w) = BitVec.ofNat w 1 from rfl, ← BitVec.ofNat_add] at he
  have h₀ : a + BitVec.ofNat w 0 = a + BitVec.ofNat w (1 + i) := by
    rw [← he]
    simp
  have := add_ofNat_inj (Nat.two_pow_pos w) (by omega) h₀
  omega

/-- Two parts of a short range are apart. -/
theorem Apart.of_offset {i j : ℕ} (h : i + n ≤ j ∨ j + k ≤ i) (hi : i + n ≤ 2 ^ w)
    (hj : j + k ≤ 2 ^ w) : Apart (a + BitVec.ofNat w i) n (a + BitVec.ofNat w j) k := by
  rintro x ⟨i', hi', rfl⟩ ⟨j', hj', he⟩
  rw [BitVec.add_assoc, BitVec.add_assoc, ← BitVec.ofNat_add, ← BitVec.ofNat_add] at he
  have := add_ofNat_inj (by omega) (by omega) he
  omega

/-- Ranges that do not wrap around and do not meet are apart. -/
theorem Apart.of_toNat (h : a.toNat + n ≤ b.toNat ∨ b.toNat + k ≤ a.toNat)
    (ha : a.toNat + n ≤ 2 ^ w) (hb : b.toNat + k ≤ 2 ^ w) : Apart a n b k := by
  rintro x ⟨i, hi, rfl⟩ ⟨j, hj, he⟩
  have he := congrArg BitVec.toNat he
  simp only [BitVec.toNat_add, BitVec.toNat_ofNat, Nat.add_mod_mod] at he
  rw [Nat.mod_eq_of_lt (by omega), Nat.mod_eq_of_lt (by omega)] at he
  omega

/-- A load depends on the bytes in its range. -/
theorem load_congr (h : ∀ x, Within a n x → m x = m' x) : load m a n = load m' a n := by
  induction n generalizing a with
  | zero => rfl
  | succ n ih => rw [load, load, h a .self, ih fun x hx => h x hx.succ]

/-- A store leaves the bytes outside of its range. -/
theorem store_of_not_within (h : ¬Within a n x) : store m a n v x = m x := by
  induction n generalizing a v with
  | zero => rfl
  | succ n ih =>
    have hne : x ≠ a := by
      rintro rfl
      exact h .self
    rw [store, Function.update_of_ne hne, ih fun hx => h hx.succ]

/-- **Reading what was written**, in a range that does not come round to its start. -/
theorem load_store (hn : n ≤ 2 ^ w) : load (store m a n v) a n = v % 256 ^ n := by
  induction n generalizing a v with
  | zero => simp [load, Nat.mod_one]
  | succ n ih =>
    have hrest : load (store m a (n + 1) v) (a + 1) n =
        load (store m (a + 1) n (v / 256)) (a + 1) n :=
      load_congr fun x hx => Function.update_of_ne
        (fun he => not_within_succ (by omega) (he ▸ hx)) _ _
    rw [load, hrest, ih (by omega)]
    have hself : store m a (n + 1) v a = BitVec.ofNat 8 v := Function.update_self ..
    rw [hself, BitVec.toNat_ofNat, Nat.pow_succ' (m := 256), Nat.mod_mul]

/-- **Reading elsewhere.** -/
theorem load_store_of_apart (h : Apart a n b k) : load (store m a n v) b k = load m b k :=
  load_congr fun _ hx => store_of_not_within fun ha => h _ ha hx

end Conc
