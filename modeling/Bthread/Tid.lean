import Mathlib.Data.Nat.Bitwise

set_option relaxedAutoImplicit false
set_option autoImplicit false

/-!
# Thread identifiers

The utilities of `task_group_inl.h` on `bthread_t`: the version of a `TaskMeta` in the high 32
bits, its slot in the low 32 bits. The version word skips `0`, so that no identifier is `0`.

## Main definitions

* `Bthread.makeTid`, `Bthread.getSlot`, `Bthread.getVersion` — packing and unpacking.

## Main results

* `Bthread.getSlot_makeTid`, `Bthread.getVersion_makeTid` — unpacking inverts packing.
-/

namespace Bthread

/-- `bthread_t`; the identifier of a pthread is `0`. -/
abbrev Tid := UInt64

/-- The slot of a `TaskMeta` in the resource pool. -/
abbrev SlotId := UInt32

/-- `make_tid`: `((bthread_t)version) << 32 | (bthread_t)slot.value`. -/
def makeTid (version : UInt32) (slot : SlotId) : Tid :=
  version.toUInt64 <<< 32 ||| slot.toUInt64

/-- `get_slot`: `tid & 0xFFFFFFFFul`. -/
def getSlot (tid : Tid) : SlotId := (tid &&& 0xFFFFFFFF).toUInt32

/-- `get_version`: `(uint32_t)((tid >> 32) & 0xFFFFFFFFul)`. -/
def getVersion (tid : Tid) : UInt32 := ((tid >>> 32) &&& 0xFFFFFFFF).toUInt32

/-- Masking with `0xFFFFFFFF` is reduction modulo `2³²`. -/
theorem toNat_and_mask (t : UInt64) : (t &&& 0xFFFFFFFF).toNat = t.toNat % 2 ^ 32 := by
  rw [UInt64.toNat_and, show (0xFFFFFFFF : UInt64).toNat = 2 ^ 32 - 1 from rfl,
    Nat.and_two_pow_sub_one_eq_mod]

/-- The slot as a number. -/
theorem toNat_getSlot (t : Tid) : (getSlot t).toNat = t.toNat % 2 ^ 32 := by
  rw [getSlot, UInt64.toNat_toUInt32, toNat_and_mask, Nat.mod_mod]

/-- The version as a number. -/
theorem toNat_getVersion (t : Tid) : (getVersion t).toNat = t.toNat / 2 ^ 32 := by
  have ht := t.toNat_lt
  rw [getVersion, UInt64.toNat_toUInt32, toNat_and_mask, UInt64.toNat_shiftRight,
    show (32 : UInt64).toNat % 64 = 32 from rfl, Nat.shiftRight_eq_div_pow]
  omega

/-- An identifier as a number: the version times `2³²` plus the slot. -/
theorem toNat_makeTid (v : UInt32) (m : SlotId) :
    (makeTid v m).toNat = v.toNat * 2 ^ 32 + m.toNat := by
  have hv := v.toNat_lt
  have hm := m.toNat_lt
  rw [makeTid, UInt64.toNat_or, UInt64.toNat_shiftLeft, UInt32.toNat_toUInt64,
    UInt32.toNat_toUInt64, show (32 : UInt64).toNat % 64 = 32 from rfl, Nat.shiftLeft_eq,
    Nat.mod_eq_of_lt (by omega), ← Nat.shiftLeft_eq, ← Nat.shiftLeft_add_eq_or_of_lt hm]

/-- **The slot of a packed identifier.** -/
@[simp] theorem getSlot_makeTid (v : UInt32) (m : SlotId) : getSlot (makeTid v m) = m := by
  apply UInt32.toNat_inj.mp
  have hm := m.toNat_lt
  rw [toNat_getSlot, toNat_makeTid]
  omega

/-- **The version of a packed identifier.** -/
@[simp] theorem getVersion_makeTid (v : UInt32) (m : SlotId) : getVersion (makeTid v m) = v := by
  apply UInt32.toNat_inj.mp
  have hm := m.toNat_lt
  rw [toNat_getVersion, toNat_makeTid]
  omega

/-- Every identifier is the packing of its version and its slot. -/
theorem makeTid_getVersion_getSlot (t : Tid) : makeTid (getVersion t) (getSlot t) = t := by
  apply UInt64.toNat_inj.mp
  rw [toNat_makeTid, toNat_getVersion, toNat_getSlot]
  omega

/-- An identifier with a nonzero version is not `0`. -/
theorem makeTid_ne_zero {v : UInt32} (hv : v ≠ 0) (m : SlotId) : makeTid v m ≠ 0 := by
  intro h
  have hv' : getVersion (makeTid v m) = v := getVersion_makeTid v m
  rw [h] at hv'
  exact hv (by rw [← hv']; decide)

end Bthread
