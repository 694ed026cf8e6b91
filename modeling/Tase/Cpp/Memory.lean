import Mathlib.Data.BitVec

/-! Byte-addressed little-endian memory with wrapping 64-bit addresses. -/

namespace Cpp

abbrev Mem := BitVec 64 → BitVec 8

namespace Mem

def bytesAt (mem : Mem) (addr : BitVec 64) : Nat → Nat
  | 0 => 0
  | count + 1 => (mem addr).toNat + 256 * bytesAt mem (addr + 1#64) count

def load (mem : Mem) (addr : BitVec 64) (width : Nat) : BitVec width :=
  BitVec.ofNat width (mem.bytesAt addr (width / 8))

def store {width : Nat} (mem : Mem) (addr : BitVec 64) (value : BitVec width) : Mem :=
  fun a => if (a - addr).toNat < width / 8 then
    value.extractLsb' (8 * (a - addr).toNat) 8 else mem a

theorem bytesAt_testBit (mem : Mem) (addr : BitVec 64) (count index : Nat) :
    (mem.bytesAt addr count).testBit index =
      (decide (index < 8 * count) &&
        (mem (addr + BitVec.ofNat 64 (index / 8))).getLsbD (index % 8)) := by
  induction count generalizing addr index with
  | zero => simp [bytesAt]
  | succ count ih =>
      have byte := (mem addr).isLt
      rw [bytesAt, Nat.add_comm, show 256 = 2 ^ 8 from rfl,
        Nat.testBit_two_pow_mul_add _ byte]
      by_cases low : index < 8
      · have inByte : index / 8 = 0 := by omega
        have same : index % 8 = index := by omega
        have bound : index < 8 * (count + 1) := by omega
        simp [low, inByte, same, bound, BitVec.getLsbD]
      · have next : addr + 1#64 + BitVec.ofNat 64 ((index - 8) / 8) =
            addr + BitVec.ofNat 64 (index / 8) := by
          rw [BitVec.add_assoc]
          congr 1
          apply BitVec.eq_of_toNat_eq
          simp only [BitVec.toNat_add, BitVec.toNat_ofNat]
          omega
        have shifted : (index - 8) % 8 = index % 8 := by omega
        have bound : (index - 8 < 8 * count) = (index < 8 * (count + 1)) := by
          apply propext
          omega
        simp only [low, if_false, ih, next, shifted, bound]

theorem load_getLsbD (mem : Mem) (addr : BitVec 64) (width index : Nat) :
    (mem.load addr width).getLsbD index =
      (decide (index < width) && decide (index < 8 * (width / 8)) &&
        (mem (addr + BitVec.ofNat 64 (index / 8))).getLsbD (index % 8)) := by
  simp [load, BitVec.getLsbD_ofNat, bytesAt_testBit, Bool.and_assoc]

theorem load_store_same {width : Nat} (mem : Mem) (addr : BitVec 64) (value : BitVec width)
    (whole : 8 * (width / 8) = width) (small : width / 8 < 2 ^ 64) :
    (mem.store addr value).load addr width = value := by
  apply BitVec.eq_of_getLsbD_eq
  intro index bound
  have inside : index / 8 < width / 8 := by omega
  have offset : (addr + BitVec.ofNat 64 (index / 8) - addr).toNat = index / 8 := by
    rw [BitVec.add_comm, BitVec.add_sub_cancel, BitVec.toNat_ofNat]
    omega
  have join : 8 * (index / 8) + index % 8 = index := by omega
  rw [load_getLsbD, store, offset]
  simp [inside, bound, whole, join, Nat.mod_lt index (by decide : 0 < 8)]

theorem store_inj {width : Nat} {mem : Mem} {addr : BitVec 64} {left right : BitVec width}
    (whole : 8 * (width / 8) = width) (small : width / 8 < 2 ^ 64) :
    mem.store addr left = mem.store addr right ↔ left = right := by
  constructor
  · intro same
    rw [← load_store_same mem addr left whole small, same, load_store_same mem addr right whole small]
  · rintro rfl
    rfl

theorem store_outside {width : Nat} (mem : Mem) (addr a : BitVec 64) (value : BitVec width)
    (outside : width / 8 ≤ (a - addr).toNat) : mem.store addr value a = mem a :=
  if_neg (Nat.not_lt.mpr outside)

theorem store_store {width : Nat} (mem : Mem) (addr : BitVec 64) (old new : BitVec width) :
    (mem.store addr old).store addr new = mem.store addr new := by
  funext a
  unfold store
  split <;> rfl

theorem load_congr (left right : Mem) (addr : BitVec 64) (width : Nat)
    (same : ∀ offset, offset < width / 8 →
      left (addr + BitVec.ofNat 64 offset) = right (addr + BitVec.ofNat 64 offset)) :
    left.load addr width = right.load addr width := by
  apply BitVec.eq_of_getLsbD_eq
  intro index bound
  rw [load_getLsbD, load_getLsbD]
  by_cases inside : index < 8 * (width / 8)
  · rw [same (index / 8) (by omega)]
  · simp [inside]

end Mem

end Cpp
