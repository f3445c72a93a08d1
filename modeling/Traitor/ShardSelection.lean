import Traitor.Dicts
import Traitor.Lib.PowersOfTwo

namespace Traitor.Dicts

open Lib.PowersOfTwo

variable {β : Type} {maxAlloc : Nat} {d : ConcurrentDict β}

/-- One step of the cascade, on a number whose sign bit is clear. -/
theorem smeared_step {n w : Nat} {x : BitVec 64} (hx : x.toNat < 2 ^ 63) (h : Smeared n w x.toNat) :
    (x ||| x.sshiftRight w).toNat < 2 ^ 63 ∧ Smeared n (2 * w) (x ||| x.sshiftRight w).toNat := by
  have hmsb : x.msb = false := by
    rw [BitVec.msb_eq_decide, decide_eq_false_iff_not]
    exact Nat.not_le.mpr hx
  have hvalue : (x ||| x.sshiftRight w).toNat = x.toNat ||| x.toNat >>> w := by
    rw [BitVec.toNat_or, BitVec.sshiftRight_eq_of_msb_false hmsb, BitVec.toNat_ushiftRight]
  rw [hvalue]
  constructor
  · apply Nat.or_lt_two_pow hx
    rw [Nat.shiftRight_eq_div_pow]
    exact (Nat.div_le_self _ _).trans_lt hx
  · exact h.double

theorem cascade_toNat {n : BitVec 64} (hn : n.toNat < 2 ^ 32) :
    let n₁ := n ||| n.sshiftRight 1
    let n₂ := n₁ ||| n₁.sshiftRight 2
    let n₄ := n₂ ||| n₂.sshiftRight 4
    let n₈ := n₄ ||| n₄.sshiftRight 8
    (n₈ ||| n₈.sshiftRight 16).toNat = 2 ^ n.toNat.size - 1 := by
  intro n₁ n₂ n₄ n₈
  have h₁ : n₁.toNat < 2 ^ 63 ∧ Smeared n.toNat 2 n₁.toNat := smeared_step (by omega) (.start _)
  have h₂ : n₂.toNat < 2 ^ 63 ∧ Smeared n.toNat 4 n₂.toNat := smeared_step h₁.1 h₁.2
  have h₄ : n₄.toNat < 2 ^ 63 ∧ Smeared n.toNat 8 n₄.toNat := smeared_step h₂.1 h₂.2
  have h₈ : n₈.toNat < 2 ^ 63 ∧ Smeared n.toNat 16 n₈.toNat := smeared_step h₄.1 h₄.2
  have h₁₆ := smeared_step h₈.1 h₈.2
  exact h₁₆.2.eq hn

theorem computeCapacity_toNat {p : Nat} (hlow : 16 < p) (hhigh : p ≤ 2 ^ 31) :
    (computeCapacity (BitVec.ofNat 64 p)).toNat = 2 ^ (p - 1).size := by
  have hp : (BitVec.ofNat 64 p).toNat = p := Nat.mod_eq_of_lt (by omega)
  have hlarge : ¬ (BitVec.ofNat 64 p).sle 16#64 := by
    rw [BitVec.sle_iff_toInt_le, BitVec.toInt_eq_toNat_of_lt (by omega), hp]
    exact Int.not_le.mpr (Int.ofNat_lt.mpr hlow)
  have hone : (BitVec.ofNat 64 p - 1#64).toNat = p - 1 := by
    rw [BitVec.toNat_sub_of_le]
    · rw [hp]
      rfl
    · rw [BitVec.le_def, hp]
      exact Nat.le_of_lt (Nat.lt_of_le_of_lt (by decide) hlow)
  have hsize : (p - 1).size ≤ 31 := Nat.size_le.mpr (by omega)
  have hpow : 2 ^ (p - 1).size ≤ 2 ^ 31 := Nat.pow_le_pow_right (by decide) hsize
  have hpos : 0 < 2 ^ (p - 1).size := Nat.two_pow_pos _
  have hcascade := @cascade_toNat (BitVec.ofNat 64 p - 1#64) (by omega)
  rw [hone] at hcascade
  simp only [computeCapacity, if_neg hlarge]
  dsimp only at hcascade
  generalize hn : BitVec.ofNat 64 p - 1#64 = n at hcascade ⊢
  rw [if_neg]
  · rw [BitVec.toNat_add_of_lt, hcascade]
    · exact Nat.sub_add_cancel hpos
    · have hone : (1#64).toNat = 1 := rfl
      rw [hcascade, hone]
      omega
  · rw [BitVec.slt_iff_toInt_lt, BitVec.toInt_eq_toNat_of_lt (by rw [hcascade]; omega)]
    exact Int.not_lt.mpr (Int.natCast_nonneg _)

theorem computeCapacity_small {p : Nat} (h : p ≤ 16) : computeCapacity (BitVec.ofNat 64 p) = 16#64 := by
  rw [computeCapacity, if_pos]
  rw [BitVec.sle_iff_toInt_le, BitVec.toInt_eq_toNat_of_lt, BitVec.toNat_ofNat]
  · rw [Nat.mod_eq_of_lt (by omega)]
    exact Int.ofNat_le.mpr h
  · rw [BitVec.toNat_ofNat]
    omega

theorem computeCapacity_two_pow {p : Nat} (hhigh : p ≤ 2 ^ 31) :
    ∃ k ≤ 31, (computeCapacity (BitVec.ofNat 64 p)).toNat = 2 ^ k := by
  by_cases h : p ≤ 16
  · rw [computeCapacity_small h]
    exact ⟨4, by decide, rfl⟩
  · exact ⟨(p - 1).size, Nat.size_le.mpr (by omega), computeCapacity_toNat (by omega) hhigh⟩

/-- The least power of two that is large enough, and 16 at least. -/
theorem computeCapacity_isLeast {p : Nat} (hhigh : p ≤ 2 ^ 31) :
    IsLeast {c | (∃ k, c = 2 ^ k) ∧ max p 16 ≤ c} (computeCapacity (BitVec.ofNat 64 p)).toNat := by
  by_cases h : p ≤ 16
  · rw [computeCapacity_small h]
    constructor
    · exact ⟨⟨4, rfl⟩, Nat.max_le.mpr ⟨h, Nat.le_refl _⟩⟩
    · rintro c ⟨-, hc⟩
      exact (Nat.le_max_right _ _).trans hc
  · have hset : {c | (∃ k, c = 2 ^ k) ∧ max p 16 ≤ c} = {c | (∃ k, c = 2 ^ k) ∧ p - 1 < c} := by
      ext c
      exact and_congr_right fun _ => by omega
    rw [computeCapacity_toNat (by omega) hhigh, hset]
    exact isLeast_two_pow_size _

/-- The mask picks the hash modulo the length of a table that is a power of two long. -/
theorem spread_toNat {k : Nat} (hk : k ≤ 31) (hlength : d.table.length = 2 ^ k) (hashCode : UInt32) :
    (d.spread hashCode).toNat = hashCode.toNat % d.table.length := by
  have hpow : 2 ^ k ≤ 2 ^ 31 := Nat.pow_le_pow_right (by decide) hk
  have hpos : 0 < 2 ^ k := Nat.two_pow_pos _
  have hmask : (UInt32.ofNat (2 ^ k) - 1).toNat = 2 ^ k - 1 := by
    rw [UInt32.toNat_sub_of_le, UInt32.toNat_ofNat_of_lt']
    · rfl
    · exact Nat.lt_of_le_of_lt hpow (by decide)
    · rw [UInt32.le_iff_toNat_le, UInt32.toNat_ofNat_of_lt']
      · exact hpos
      · exact Nat.lt_of_le_of_lt hpow (by decide)
  rw [ConcurrentDict.spread, hlength, UInt32.toNat_and, hmask, Nat.and_comm, Nat.and_two_pow_sub_one_eq_mod]

/-- What picks the shard of a key of a dictionary that is made for so many shards. -/
structure SelectsShards (β : Type) (maxAlloc p : Nat) : Prop where
  capacity : IsLeast {c | (∃ k, c = 2 ^ k) ∧ max p 16 ≤ c} (computeCapacity (BitVec.ofNat 64 p)).toNat
  table : ∀ d : ConcurrentDict β, ConcurrentDict.makeConcurrentDict maxAlloc (BitVec.ofNat 64 p) = some d →
    d.table.length = (computeCapacity (BitVec.ofNat 64 p)).toNat
  inside : ∀ d : ConcurrentDict β, d.table.length = (computeCapacity (BitVec.ofNat 64 p)).toNat → ∀ key,
    (d.spread (hash key)).toNat < d.table.length
  modulo : ∀ d : ConcurrentDict β, d.table.length = (computeCapacity (BitVec.ofNat 64 p)).toNat → ∀ key,
    (d.spread (hash key)).toNat = (hash key).toNat % d.table.length

theorem selectsShards (maxAlloc : Nat) {p : Nat} (hhigh : p ≤ 2 ^ 31) : SelectsShards β maxAlloc p := by
  obtain ⟨k, hk, hpow⟩ := computeCapacity_two_pow hhigh
  have hmodulo (d : ConcurrentDict β) (hlength : d.table.length = (computeCapacity (BitVec.ofNat 64 p)).toNat)
      (key : Bytes) : (d.spread (hash key)).toNat = (hash key).toNat % d.table.length :=
    spread_toNat hk (hlength.trans hpow) _
  refine ⟨computeCapacity_isLeast hhigh, ?_, ?_, hmodulo⟩
  · intro d hd
    rw [ConcurrentDict.makeConcurrentDict] at hd
    split at hd
    · obtain rfl := Option.some.inj hd
      exact List.length_replicate
    · cases hd
  · intro d hlength key
    rw [hmodulo d hlength key]
    apply Nat.mod_lt
    rw [hlength, hpow]
    exact Nat.two_pow_pos k

theorem selectsShards_largest : SelectsShards Unit (2 ^ 47) (2 ^ 31) :=
  selectsShards (2 ^ 47) (by decide)

end Traitor.Dicts
