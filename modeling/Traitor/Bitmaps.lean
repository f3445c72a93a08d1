import Mathlib
import Traitor.StringCommands

namespace Traitor.Database.BitMap

variable {b b' : BitMap} {byte : UInt8} {k o p : Nat}

def bitAt (b : BitMap) (p : Nat) : Bool := (b.getD (p / 8) 0).toNat.testBit (p % 8)

theorem bit_eq (byte : UInt8) (k : Nat) : bit byte k = (byte.toNat.testBit k).toNat :=
  (Nat.toNat_testBit _ _).symm

theorem getBit_eq (b : BitMap) (p : Nat) : b.getBit p = some (b.bitAt p).toNat := by
  have hdiv : (p : Int).tdiv 8 = (p / 8 : Nat) := rfl
  have hmod : (p : Int).tmod 8 = (p % 8 : Nat) := rfl
  simp only [getBit, hdiv, hmod, Int.toNat_natCast, Int.ofNat_le]
  by_cases hout : b.length ≤ p / 8
  · have hnone : b[p / 8]? = none := List.getElem?_eq_none hout
    rw [if_pos hout, bitAt, List.getD_eq_getElem?_getD, hnone]
    simp
  · have hsome : b[p / 8]? = some (b.getD (p / 8) 0) := by
      rw [List.getD_eq_getElem?_getD, List.getElem?_eq_getElem (by omega)]
      rfl
    rw [if_neg hout, if_neg (by omega), hsome, Option.map_some, bit_eq]
    rfl

theorem mask_testBit (hk : k < 8) (i : Nat) : (2 ^ k).toUInt8.toNat.testBit i = decide (k = i) := by
  have hlt : 2 ^ k < 2 ^ 8 := Nat.pow_lt_pow_right (by decide) hk
  have hmask : (2 ^ k).toUInt8.toNat = 2 ^ k := Nat.mod_eq_of_lt hlt
  rw [hmask, Nat.testBit_two_pow]

theorem not_testBit (byte : UInt8) {i : Nat} (hi : i < 8) : (~~~byte).toNat.testBit i = !byte.toNat.testBit i := by
  have h := BitVec.getLsbD_not (x := byte.toBitVec) (i := i)
  simpa [BitVec.getLsbD, hi] using h

/-- The other seven bits stay. -/
theorem writeBit_testBit (byte : UInt8) (hk : k < 8) (val : Nat) {i : Nat} (hi : i < 8) :
    (writeBit byte k val).toNat.testBit i = if i = k then decide (0 < val) else byte.toNat.testBit i := by
  by_cases hval : 0 < val
  · rw [writeBit, if_pos hval, UInt8.toNat_or, Nat.testBit_or, mask_testBit hk]
    by_cases h : i = k
    · simp [h, hval]
    · simp [h, Ne.symm h]
  · rw [writeBit, if_neg hval, UInt8.toNat_and, Nat.testBit_and, not_testBit _ hi, mask_testBit hk]
    by_cases h : i = k
    · simp [h, hval]
    · simp [h, Ne.symm h]

theorem toByteSize_eq (n : Nat) : toByteSize n = (n ⌈/⌉ 8 : Nat) := by
  have hdiv : (n : Int).tdiv 8 = (n / 8 : Nat) := rfl
  have hmod : (n : Int).tmod 8 = (n % 8 : Nat) := rfl
  rw [toByteSize, hdiv, hmod, Nat.ceilDiv_eq_add_pred_div]
  split_ifs <;> omega

theorem grow_length (b : BitMap) (n : Nat) : (b.grow n).length = max b.length (n ⌈/⌉ 8) := by
  rw [grow, toByteSize_eq, List.length_append, List.length_replicate]
  omega

theorem grow_getD (b : BitMap) (n : Int) (i : Nat) : (b.grow n).getD i 0 = b.getD i 0 := by
  rw [grow, List.getD_eq_getElem?_getD, List.getD_eq_getElem?_getD, List.getElem?_append]
  split
  · rfl
  · rename_i hout
    rw [List.getElem?_eq_none (Nat.le_of_not_lt hout), List.getElem?_replicate]
    split <;> rfl

theorem grow_bitAt (b : BitMap) (n : Int) (p : Nat) : (b.grow n).bitAt p = b.bitAt p := by
  rw [bitAt, bitAt, grow_getD]

def put (b : BitMap) (o val : Nat) : BitMap := b.set (o / 8) (writeBit (b.getD (o / 8) 0) (o % 8) val)

theorem put_bitAt (b : BitMap) (val : Nat) (hin : o / 8 < b.length) (p : Nat) :
    (b.put o val).bitAt p = if p = o then decide (0 < val) else b.bitAt p := by
  rw [bitAt, bitAt, put, List.getD_eq_getElem?_getD, List.getElem?_set]
  by_cases hbyte : o / 8 = p / 8
  · rw [if_pos hbyte, if_pos hin, Option.getD_some, writeBit_testBit _ (by omega) _ (by omega), hbyte]
    by_cases hp : p = o
    · rw [if_pos (by rw [hp]), if_pos hp]
    · rw [if_neg (by omega), if_neg hp]
  · rw [if_neg hbyte, ← List.getD_eq_getElem?_getD, if_neg (by rintro rfl; exact hbyte rfl)]

theorem setBit_spec (b : BitMap) (val : Nat) (ho : o + 1 < 2 ^ 63) :
    ∃ b', b.setBit o val = some b' ∧ b'.length = max b.length ((o + 1) ⌈/⌉ 8) ∧
      ∀ p, b'.bitAt p = if p = o then decide (0 < val) else b.bitAt p := by
  have hdiv : (o : Int).tdiv 8 = (o / 8 : Nat) := rfl
  have hmod : (o : Int).tmod 8 = (o % 8 : Nat) := rfl
  have hwrap : wrap64 ((o : Int) + 1) = (o + 1 : Nat) := by
    rw [wrap64_of_lt (by omega) (by omega)]
    rfl
  have hin : o / 8 < (b.grow (o + 1 : Nat)).length := by
    rw [grow_length, Nat.ceilDiv_eq_add_pred_div]
    omega
  refine ⟨(b.grow (o + 1 : Nat)).put o val, ?_, ?_, fun p => ?_⟩
  · simp only [setBit, hdiv, hmod, hwrap, Int.toNat_natCast]
    rw [if_neg (by omega), if_neg (by omega), List.getElem?_eq_getElem hin, put, List.getD_eq_getElem?_getD,
      List.getElem?_eq_getElem hin]
    rfl
  · rw [put, List.length_set, grow_length]
  · rw [put_bitAt _ _ hin, grow_bitAt]

def setBits (b : BitMap) (writes : List (Nat × UInt8)) : Option BitMap :=
  writes.foldlM (fun b w => b.setBit w.1 w.2.toNat) b

def lastWritten (b : BitMap) (writes : List (Nat × UInt8)) (p : Nat) : Bool :=
  match writes.reverse.find? fun w => w.1 = p with
  | some w => decide (0 < w.2)
  | none => b.bitAt p

theorem lastWritten_cons (b b' : BitMap) (w : Nat × UInt8) (writes : List (Nat × UInt8)) (p : Nat)
    (h : b'.bitAt p = if p = w.1 then decide (0 < w.2) else b.bitAt p) :
    b'.lastWritten writes p = b.lastWritten (w :: writes) p := by
  rw [lastWritten, lastWritten, List.reverse_cons, List.find?_append]
  cases writes.reverse.find? fun w => w.1 = p with
  | some last => rfl
  | none =>
      by_cases hp : w.1 = p
      · simp [hp, h]
      · simp [hp, h, Ne.symm hp]

end Traitor.Database.BitMap
