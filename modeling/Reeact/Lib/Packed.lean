import Mathlib.Data.BitVec
import Mathlib.Tactic.Common

/-!
# Two 32-bit words packed into one 64-bit word

Little-endian: the low half is the first member in memory. A 64-bit store
replaces both halves at once; an operation on one half leaves the other.
-/

namespace Packed

/-- The low (first) half. -/
def lo (w : BitVec 64) : BitVec 32 := w.setWidth 32

/-- The high (second) half. -/
def hi (w : BitVec 64) : BitVec 32 := (w >>> 32).setWidth 32

/-- Replace the high half. -/
def withHi (w : BitVec 64) (v : BitVec 32) : BitVec 64 :=
  (v.setWidth 64 <<< 32) ||| (lo w).setWidth 64

theorem hi_toNat (w : BitVec 64) : (hi w).toNat = w.toNat / 2 ^ 32 := by
  simp only [hi, BitVec.toNat_setWidth, BitVec.toNat_ushiftRight,
    Nat.shiftRight_eq_div_pow]
  exact Nat.mod_eq_of_lt (by omega)

theorem lo_withHi (w : BitVec 64) (v : BitVec 32) : lo (withHi w v) = lo w := by
  ext i hi
  simp only [lo, withHi, BitVec.getElem_setWidth, BitVec.getLsbD_or,
    BitVec.getLsbD_shiftLeft, BitVec.getLsbD_setWidth]
  have h64 : i < 64 := by omega
  simp [hi, h64]

theorem hi_withHi (w : BitVec 64) (v : BitVec 32) : hi (withHi w v) = v := by
  ext i h
  simp only [hi, withHi, BitVec.getElem_setWidth, BitVec.getLsbD_ushiftRight,
    BitVec.getLsbD_or, BitVec.getLsbD_shiftLeft, BitVec.getLsbD_setWidth, lo]
  have h64 : i < 64 := by omega
  have hlt : ¬ 32 + i < 32 := by omega
  have h64' : 32 + i < 64 := by omega
  simp [h64, h64', h, hlt]

/-- Widening a 32-bit value fills the high half with zero: nothing computed
in 32 bits can carry into the other half. -/
theorem lo_setWidth (v : BitVec 32) : lo (v.setWidth 64) = v := by
  ext i _
  simp [lo]

theorem hi_setWidth (v : BitVec 32) : hi (v.setWidth 64) = 0 := by
  apply BitVec.eq_of_toNat_eq
  rw [hi_toNat]
  simp only [BitVec.toNat_setWidth, BitVec.ofNat_eq_ofNat, BitVec.toNat_ofNat]
  have := v.isLt
  omega

@[simp] theorem lo_zero : lo 0#64 = 0#32 := by simp [lo]

@[simp] theorem hi_zero : hi 0#64 = 0#32 := by simp [hi]

end Packed
