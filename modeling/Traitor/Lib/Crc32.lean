import Mathlib.Data.Nat.Notation

namespace Traitor.Lib.Crc32

def polynomial : BitVec 32 := 0xEDB88320#32

def bitStep (crc : BitVec 32) : BitVec 32 :=
  if crc.getLsbD 0 then (crc >>> 1) ^^^ polynomial else crc >>> 1

def byteStep (crc : BitVec 32) (b : UInt8) : BitVec 32 :=
  (List.range 8).foldl (fun crc _ => bitStep crc) (crc ^^^ b.toBitVec.zeroExtend 32)

/-- The CRC-32 of the IEEE polynomial, bit by bit. -/
def checksumIEEE (data : List UInt8) : Nat :=
  (data.foldl byteStep 0xFFFFFFFF#32 ^^^ 0xFFFFFFFF#32).toNat

/-- The check value of the standard. -/
example : checksumIEEE [49, 50, 51, 52, 53, 54, 55, 56, 57] = 0xCBF43926 := by decide +kernel

end Traitor.Lib.Crc32
