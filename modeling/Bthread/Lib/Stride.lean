import Mathlib.Data.Nat.ModEq
import Mathlib.Data.List.Perm.Subperm
import Mathlib.Data.List.Nodup
import Mathlib.Data.Nat.GCD.Basic
import Mathlib.Tactic.Ring

set_option relaxedAutoImplicit false
set_option autoImplicit false

/-!
# Strides around a ring

A scan of a ring of `n` cells that starts at an arbitrary number and goes on in strides coprime to
`n` meets every cell once, as long as the number is exact. A counter that is kept modulo `W` keeps
this property when `n` divides `W` or when it does not wrap, and loses it when it wraps once.

## Main definitions

* `Conc.visits` — the cells a scan meets.

## Main results

* `Conc.visits_perm_of_dvd`, `Conc.visits_perm_of_lt` — a scan that meets every cell once.
* `Conc.dvd_or_lt_of_visits_nodup` — a scan that meets no cell twice and wraps at most once.
-/

namespace Conc

variable {W n o s : ℕ}

/-- The cells of a ring of `n` cells that a scan meets in `k` steps: it starts at `s` and goes on in
strides of `o`, and its counter is kept modulo `W`. -/
def visits (W n o s k : ℕ) : List ℕ := (List.range k).map fun i => (s + i * o) % W % n

/-- A scan of `k` steps meets `k` cells. -/
@[simp]
theorem length_visits (k : ℕ) : (visits W n o s k).length = k := by simp [visits]

/-- The first step of a scan. -/
theorem visits_succ (k : ℕ) : visits W n o s (k + 1) =
    s % W % n :: visits W n o (s + o) k := by
  simp only [visits, List.range_succ_eq_map, List.map_cons, List.map_map, Nat.zero_mul,
    Nat.add_zero]
  congr 1
  refine List.map_congr_left fun i _ => ?_
  show (s + (i + 1) * o) % W % n = _
  rw [show s + (i + 1) * o = s + o + i * o by ring]

/-- A scan does not see whether its start was reduced. -/
theorem visits_mod (k : ℕ) : visits W n o (s % W) k = visits W n o s k := by
  simp only [visits, Nat.mod_add_mod]

/-- Without a modulus, strides coprime to `n` do not come back within `n` steps. -/
theorem eq_of_stride {i j : ℕ} (ho : o.Coprime n) (hi : i < n) (hj : j < n)
    (h : (s + i * o) % n = (s + j * o) % n) : i = j := by
  have hm : s + i * o ≡ s + j * o [MOD n] := h
  have hm : i * o ≡ j * o [MOD n] := Nat.ModEq.add_left_cancel' s hm
  have hm : i ≡ j [MOD n] := Nat.ModEq.cancel_right_of_coprime ho.symm hm
  rwa [Nat.ModEq, Nat.mod_eq_of_lt hi, Nat.mod_eq_of_lt hj] at hm

/-- `n` different cells of a ring of `n` cells are all of them. -/
theorem perm_range_of_nodup {l : List ℕ} (hn : l.Nodup) (hl : l.length = n)
    (h : ∀ i ∈ l, i < n) : l.Perm (List.range n) := by
  have hs : l.Subperm (List.range n) :=
    List.subperm_of_subset hn fun i hi => List.mem_range.mpr (h i hi)
  exact hs.perm_of_length_le (by simp [hl])

/-- An exact scan meets every cell once. -/
theorem exact_perm (ho : o.Coprime n) :
    ((List.range n).map fun i => (s + i * o) % n).Perm (List.range n) := by
  refine perm_range_of_nodup ?_ (by simp) fun i hi => ?_
  · refine List.Nodup.map_on (fun i hi j hj h => ?_) List.nodup_range
    exact eq_of_stride ho (List.mem_range.mp hi) (List.mem_range.mp hj) h
  · obtain ⟨j, hj, rfl⟩ := List.mem_map.mp hi
    exact Nat.mod_lt _ (by have := List.mem_range.mp hj; omega)

/-- A scan whose counter wraps at a multiple of `n` meets every cell once. -/
theorem visits_perm_of_dvd (ho : o.Coprime n) (hW : n ∣ W) :
    (visits W n o s n).Perm (List.range n) := by
  simp only [visits, Nat.mod_mod_of_dvd _ hW]
  exact exact_perm ho

/-- A scan whose counter does not wrap meets every cell once. -/
theorem visits_perm_of_lt (ho : o.Coprime n) (hs : s + (n - 1) * o < W) :
    (visits W n o s n).Perm (List.range n) := by
  have hv : visits W n o s n = (List.range n).map fun i => (s + i * o) % n := by
    refine List.map_congr_left fun i hi => ?_
    have hi : i ≤ n - 1 := by have := List.mem_range.mp hi; omega
    have hm : i * o ≤ (n - 1) * o := Nat.mul_le_mul_right o hi
    rw [Nat.mod_eq_of_lt (show s + i * o < W by omega)]
  rw [hv]
  exact exact_perm ho

/-- Every residue is a multiple of a stride coprime to `n`. -/
theorem exists_stride (ho : o.Coprime n) (hn : 0 < n) (r : ℕ) :
    ∃ d < n, d * o ≡ r [MOD n] := by
  have hr : r % n ∈ (List.range n).map fun i => (0 + i * o) % n :=
    (exact_perm ho).mem_iff.mpr (List.mem_range.mpr (Nat.mod_lt _ hn))
  obtain ⟨d, hd, hr⟩ := List.mem_map.mp hr
  exact ⟨d, List.mem_range.mp hd, by simpa [Nat.ModEq] using hr⟩

/-- A scan that meets no cell twice and whose strides add up to less than `W` wraps only if `n`
divides `W`.

**Proof sketch.** Let step `j` be the first one after the wrap, and `d` the number of strides that
make `W`, modulo `n`. After the wrap the scan is `d` strides behind, so at step `max j d` it meets
the cell of the step `d` earlier, which was before the wrap. -/
theorem dvd_or_lt_of_visits_nodup (ho : o.Coprime n) (hn : 0 < n) (hs : s < W)
    (hw : (n - 1) * o < W) (h : (visits W n o s n).Nodup) : n ∣ W ∨ s + (n - 1) * o < W := by
  by_contra hcon
  obtain ⟨hd, hwrap⟩ := not_or.mp hcon
  have hwrap : ∃ j, W ≤ s + j * o := ⟨n - 1, by omega⟩
  -- the first step after the wrap
  let j := Nat.find hwrap
  have hj : W ≤ s + j * o := Nat.find_spec hwrap
  have hj0 : j ≠ 0 := by
    intro h0
    rw [h0] at hj
    omega
  have hjn : j ≤ n - 1 := Nat.find_min' hwrap (by omega)
  have hlt : ∀ i < j, s + i * o < W := fun i hi => not_le.mp (Nat.find_min hwrap hi)
  -- the strides that make `W`
  obtain ⟨d, hdn, hdW⟩ := exists_stride ho hn W
  have hd0 : d ≠ 0 := by
    rintro rfl
    exact hd ((Nat.modEq_zero_iff_dvd).mp (by simpa using hdW.symm))
  let i := max j d
  have hi : i < n := by omega
  have hback : i - d < j := by omega
  have hio : i * o ≤ (n - 1) * o := Nat.mul_le_mul_right o (by omega)
  have hji : j * o ≤ i * o := Nat.mul_le_mul_right o (by omega)
  have hcell : (s + i * o) % W % n = (s + (i - d) * o) % W % n := by
    have hmod : (s + i * o) % W = s + i * o - W := by
      rw [Nat.mod_eq_sub_mod (by omega), Nat.mod_eq_of_lt (by omega)]
    rw [hmod, Nat.mod_eq_of_lt (hlt _ hback)]
    have hsum : s + i * o - W + W ≡ s + (i - d) * o + W [MOD n] := by
      have he : s + i * o - W + W = s + (i - d) * o + d * o := by
        have : i * o = (i - d) * o + d * o := by rw [← Nat.add_mul, Nat.sub_add_cancel (by omega)]
        omega
      rw [he]
      exact hdW.add_left _
    exact Nat.ModEq.add_right_cancel' W hsum
  have hinj := List.inj_on_of_nodup_map h (List.mem_range.mpr hi)
    (List.mem_range.mpr (by omega : i - d < n)) hcell
  omega

end Conc
