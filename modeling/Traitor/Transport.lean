import Mathlib.Data.List.Basic
import Mathlib.Tactic.Common
import Traitor.Basic

namespace Traitor.Transport

abbrev BlockingBuff := List Bytes

def capacity : Nat := 256

def copy (b received : Bytes) : Bytes := received.take b.length ++ b.drop received.length

namespace BlockingBuff

/-- None is a call that blocks. -/
def write (bf : BlockingBuff) (b : Bytes) : Option (BlockingBuff × Nat) :=
  if bf.length < capacity then some (bf ++ [b], b.length) else none

/-- The contents of the reader's buffer are left changed. -/
def read (bf : BlockingBuff) (b : Bytes) : Option (BlockingBuff × Bytes × Nat) :=
  match bf with
  | [] => none
  | received :: bf => some (bf, copy b received, received.length)

end BlockingBuff

inductive Call
  | write (b : Bytes)
  | read (b : Bytes)

structure Delivery where
  buffer : Bytes
  n : Nat

def run (bf : BlockingBuff) : List Call → Option (BlockingBuff × List Delivery)
  | [] => some (bf, [])
  | .write b :: calls => do
      let (bf, _) ← bf.write b
      run bf calls
  | .read b :: calls => do
      let (bf, buffer, n) ← bf.read b
      let (bf, deliveries) ← run bf calls
      some (bf, ⟨buffer, n⟩ :: deliveries)

def written : List Call → List Bytes
  | [] => []
  | .write b :: calls => b :: written calls
  | .read _ :: calls => written calls

def buffers : List Call → List Bytes
  | [] => []
  | .write _ :: calls => buffers calls
  | .read b :: calls => b :: buffers calls

/-- No call reports more than its buffer holds, and what the calls report is a part
of what is written, from its beginning. -/
def Lossless (calls : List Call) (deliveries : List Delivery) : Prop :=
  (∀ d ∈ deliveries, d.n ≤ d.buffer.length) ∧
    (deliveries.flatMap fun d => d.buffer.take d.n) <+: (written calls).flatten

/-- The string that a call reads fits into its buffer: calls read the strings in the
order in which they are written. -/
def Fits (calls : List Call) : Prop :=
  ∀ p ∈ (buffers calls).zip (written calls), p.2.length ≤ p.1.length

theorem copy_length (b received : Bytes) : (copy b received).length = b.length := by
  simp only [copy, List.length_append, List.length_take, List.length_drop]
  omega

theorem take_copy {b received : Bytes} (h : received.length ≤ b.length) :
    (copy b received).take received.length = received := by
  rw [copy, List.take_of_length_le h, List.take_left]

def deliver (p : Bytes × Bytes) : Delivery := ⟨copy p.1 p.2, p.2.length⟩

theorem run_deliveries {bf bf' : BlockingBuff} {calls : List Call} {deliveries : List Delivery}
    (h : run bf calls = some (bf', deliveries)) :
    deliveries = ((buffers calls).zip (bf ++ written calls)).map deliver := by
  induction calls generalizing bf deliveries with
  | nil =>
      obtain ⟨-, rfl⟩ := Prod.mk.inj (Option.some.inj h)
      rfl
  | cons call calls ih =>
      cases call with
      | write b =>
          simp only [run, BlockingBuff.write] at h
          split at h
          · simpa [written, buffers] using ih h
          · simp at h
      | read b =>
          cases bf with
          | nil => simp [run, BlockingBuff.read] at h
          | cons received bf =>
              simp only [run, BlockingBuff.read, Option.bind_eq_bind, Option.bind_some] at h
              obtain ⟨⟨bf'', rest⟩, hrest, heq⟩ := Option.bind_eq_some_iff.mp h
              obtain ⟨rfl, rfl⟩ := Prod.mk.inj (Option.some.inj heq)
              rw [ih hrest]
              rfl

theorem flatten_snd_zip_prefix (l r : List Bytes) : ((l.zip r).map Prod.snd).flatten <+: r.flatten := by
  induction r generalizing l with
  | nil => simp
  | cons s r ih =>
      cases l with
      | nil => simp
      | cons b l => simpa [List.prefix_append_right_inj] using ih l

theorem lossless_iff_fits {calls : List Call} {bf : BlockingBuff} {deliveries : List Delivery}
    (h : run [] calls = some (bf, deliveries)) : Lossless calls deliveries ↔ Fits calls := by
  have hd := run_deliveries h
  rw [List.nil_append] at hd
  subst hd
  constructor
  · intro hl p hp
    have hn := hl.1 (deliver p) (List.mem_map_of_mem hp)
    rwa [deliver, copy_length] at hn
  · intro hf
    refine ⟨?_, ?_⟩
    · intro d hd
      obtain ⟨p, hp, rfl⟩ := List.mem_map.mp hd
      rw [deliver, copy_length]
      exact hf p hp
    · have htake : (((buffers calls).zip (written calls)).map deliver).flatMap
          (fun d => d.buffer.take d.n) =
          (((buffers calls).zip (written calls)).map Prod.snd).flatten := by
        rw [List.flatMap_map, List.flatMap_def]
        congr 1
        exact List.map_congr_left fun p hp => take_copy (hf p hp)
      rw [htake]
      exact flatten_snd_zip_prefix _ _

theorem lossless_iff_fits_small :
    Lossless [.write [1, 2], .read [0, 0, 0]] [⟨[1, 2, 0], 2⟩] ↔
      Fits [.write [1, 2], .read [0, 0, 0]] := @lossless_iff_fits _ [] _ (by rfl)

/-- The second byte is lost, and reported as read. -/
theorem not_lossless_short :
    run [] [.write [1, 2], .read [0]] = some ([], [⟨[1], 2⟩]) ∧
      ¬ Lossless [.write [1, 2], .read [0]] [⟨[1], 2⟩] := by
  refine ⟨rfl, fun h => ?_⟩
  have hn := h.1 ⟨[1], 2⟩ (List.mem_singleton.mpr rfl)
  simp at hn

end Traitor.Transport
