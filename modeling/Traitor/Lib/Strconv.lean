import Mathlib.Algebra.Group.Nat.Defs
import Mathlib.Algebra.Ring.Int.Defs
import Mathlib.Data.List.Basic
import Mathlib.Tactic.Common

namespace Traitor.Lib.Strconv

def formatNat (n : Nat) : List UInt8 := (Nat.toDigits 10 n).map (fun c => c.toNat.toUInt8)

def formatInt (i : Int) : List UInt8 :=
  if i < 0 then 45 :: formatNat i.natAbs else formatNat i.natAbs

def isDigit (b : UInt8) : Bool := 48 ≤ b && b ≤ 57

/-- A non-empty sequence of digits, of any length. -/
def parseNat (s : List UInt8) : Option Nat :=
  if s ≠ [] ∧ s.all isDigit
  then some (Nat.ofDigitChars 10 (s.map (fun b => Char.ofNat b.toNat)) 0) else none

/-- Without sign, and none when the value does not fit the given number of bits. -/
def parseUint (bits : Nat) (s : List UInt8) : Option Nat :=
  (parseNat s).bind fun n => if n < 2 ^ bits then some n else none

def parseInt (bits : Nat) (s : List UInt8) : Option Int :=
  match s with
  | 45 :: s => (parseNat s).bind fun n => if n ≤ 2 ^ (bits - 1) then some (-n) else none
  | 43 :: s => (parseNat s).bind fun n => if n < 2 ^ (bits - 1) then some n else none
  | s => (parseNat s).bind fun n => if n < 2 ^ (bits - 1) then some n else none

theorem toNat_of_isDigit {c : Char} (h : c.isDigit) : 48 ≤ c.toNat ∧ c.toNat ≤ 57 := by
  simp only [Char.isDigit, Bool.and_eq_true, decide_eq_true_eq] at h
  exact ⟨h.1, h.2⟩

theorem isDigit_of_mem {n : Nat} {b : UInt8} (h : b ∈ formatNat n) : isDigit b := by
  obtain ⟨c, hc, rfl⟩ := List.mem_map.mp h
  have hd := toNat_of_isDigit (Nat.isDigit_of_mem_toDigits (by decide) (by decide) hc)
  have hn : c.toNat.toUInt8.toNat = c.toNat := by
    simp only [Nat.toUInt8, UInt8.toNat_ofNat']
    omega
  simp only [isDigit, Bool.and_eq_true, decide_eq_true_eq, UInt8.le_iff_toNat_le, hn]
  exact hd

theorem formatNat_ne_nil (n : Nat) : formatNat n ≠ [] := by
  simp [formatNat, Nat.toDigits_ne_nil]

theorem parseNat_formatNat (n : Nat) : parseNat (formatNat n) = some n := by
  have hall : (formatNat n).all isDigit := List.all_eq_true.mpr fun b hb => isDigit_of_mem hb
  have hback : (formatNat n).map (fun b => Char.ofNat b.toNat) = Nat.toDigits 10 n := by
    rw [formatNat, List.map_map]
    conv_rhs => rw [← List.map_id (Nat.toDigits 10 n)]
    apply List.map_congr_left
    intro c hc
    have hd := toNat_of_isDigit (Nat.isDigit_of_mem_toDigits (by decide) (by decide) hc)
    have hn : c.toNat.toUInt8.toNat = c.toNat := by
      simp only [Nat.toUInt8, UInt8.toNat_ofNat']
      omega
    simp [Function.comp_apply, hn]
  rw [parseNat, if_pos ⟨formatNat_ne_nil n, hall⟩, hback, Nat.ofDigitChars_ten_toDigits]

theorem parseUint_lt {bits n : Nat} {s : List UInt8} (h : parseUint bits s = some n) : n < 2 ^ bits := by
  obtain ⟨m, -, hm⟩ := Option.bind_eq_some_iff.mp h
  split at hm
  · cases hm
    assumption
  · cases hm

theorem parseUint_formatNat (bits n : Nat) :
    parseUint bits (formatNat n) = if n < 2 ^ bits then some n else none := by
  rw [parseUint, parseNat_formatNat, Option.bind_some]

theorem parseInt_formatNat (bits n : Nat) :
    parseInt bits (formatNat n) = if n < 2 ^ (bits - 1) then some (n : Int) else none := by
  cases hf : formatNat n with
  | nil => exact absurd hf (formatNat_ne_nil n)
  | cons b s =>
      have hb : isDigit b := isDigit_of_mem (n := n) (by simp [hf])
      have hminus : b ≠ 45 := fun he => by rw [he] at hb; exact absurd hb (by decide)
      have hplus : b ≠ 43 := fun he => by rw [he] at hb; exact absurd hb (by decide)
      have hp : parseNat (b :: s) = some n := hf ▸ parseNat_formatNat n
      unfold parseInt
      split
      · rename_i heq
        exact absurd (List.cons.inj heq).1 hminus
      · rename_i heq
        exact absurd (List.cons.inj heq).1 hplus
      · rw [hp, Option.bind_some]

theorem parseInt_range {bits : Nat} {s : List UInt8} {i : Int} (h : parseInt bits s = some i) :
    -2 ^ (bits - 1) ≤ i ∧ i < 2 ^ (bits - 1) := by
  have hcast : ((2 ^ (bits - 1) : Nat) : Int) = 2 ^ (bits - 1) := Int.natCast_pow 2 _
  have hpos : 0 < 2 ^ (bits - 1) := Nat.pow_pos (by decide)
  unfold parseInt at h
  split at h
  · obtain ⟨n, -, hn⟩ := Option.bind_eq_some_iff.mp h
    split at hn
    · cases hn
      omega
    · cases hn
  all_goals
    obtain ⟨n, -, hn⟩ := Option.bind_eq_some_iff.mp h
    split at hn
    · cases hn
      omega
    · cases hn

theorem parseInt_formatInt {bits : Nat} {i : Int} (hlo : -2 ^ (bits - 1) ≤ i)
    (hhi : i < 2 ^ (bits - 1)) : parseInt bits (formatInt i) = some i := by
  have hcast : ((2 ^ (bits - 1) : Nat) : Int) = 2 ^ (bits - 1) := Int.natCast_pow 2 _
  rw [formatInt]
  split
  · have hle : i.natAbs ≤ 2 ^ (bits - 1) := by
      apply Int.ofNat_le.mp
      rw [hcast]
      omega
    rw [parseInt, parseNat_formatNat, Option.bind_some, if_pos hle]
    simp only [Option.some.injEq]
    omega
  · have hlt : i.natAbs < 2 ^ (bits - 1) := by
      apply Int.ofNat_lt.mp
      rw [hcast]
      omega
    rw [parseInt_formatNat, if_pos hlt]
    simp only [Option.some.injEq]
    omega

end Traitor.Lib.Strconv
