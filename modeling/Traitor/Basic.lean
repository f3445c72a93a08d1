import Mathlib.Algebra.Group.Nat.Defs
import Mathlib.Algebra.Ring.Int.Defs
import Mathlib.Data.List.Infix

namespace Traitor

abbrev Bytes := List UInt8

instance : LawfulBEq Bytes := inferInstance

def bytes (s : String) : Bytes := s.toList.map (fun c => c.toNat.toUInt8)

/-- Durations and instants are counted in nanoseconds. -/
def second : Nat := 1000000000

def wrap64 (i : Int) : Int := i.bmod (2 ^ 64)

theorem wrap64_of_lt {i : Int} (hlow : -2 ^ 63 ≤ i) (hhigh : i < 2 ^ 63) : wrap64 i = i := by
  rw [wrap64, Int.bmod]
  omega

theorem wrap64_of_le {i : Int} (hlow : 2 ^ 63 ≤ i) (hhigh : i < 2 ^ 64) : wrap64 i = i - 2 ^ 64 := by
  rw [wrap64, Int.bmod]
  omega

theorem wrap64_range (i : Int) : -2 ^ 63 ≤ wrap64 i ∧ wrap64 i < 2 ^ 63 := by
  rw [wrap64, Int.bmod]
  omega

end Traitor
