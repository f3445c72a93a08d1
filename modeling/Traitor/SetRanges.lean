import Traitor.IndexRanges

namespace Traitor.Database

open Lib.Effects Lib.Strconv Protocol

variable {σ : Type} {env : Env σ} {w : World σ} {key rawOffset value : Slice} {rest : List Slice} {s v : Bytes} {o : Nat}

/-- The loop of `execSetRange`: below the length that the bytes had before it a byte is stored, and appended
from there on. None is an index that panics. -/
def writeLoop (bytesLen offset : Int) (s : Bytes) (i : Nat) : Bytes → Option Bytes
  | [] => some s
  | b :: value =>
      let idx := wrap64 (offset + i)
      if bytesLen ≤ idx then writeLoop bytesLen offset (s ++ [b]) (i + 1) value
      else if idx < 0 ∨ s.length ≤ idx then none
      else writeLoop bytesLen offset (s.set idx.toNat b) (i + 1) value

def setRange (s : Bytes) (offset : Int) (value : Bytes) : Option Bytes :=
  let s := s ++ List.replicate (offset - s.length).toNat 0
  writeLoop s.length offset s 0 value

theorem overwrite_nil (s : Bytes) (o : Nat) : overwrite s o [] = s := by
  rw [overwrite, List.append_nil]
  exact List.take_append_drop o s

theorem overwrite_length (ho : o ≤ s.length) (v : Bytes) : (overwrite s o v).length = max s.length (o + v.length) := by
  simp only [overwrite, List.length_append, List.length_take, List.length_drop]
  omega

/-- One more byte is appended, or stored in place of the one that was there. -/
theorem overwrite_append (ho : o ≤ s.length) (v : Bytes) (b : UInt8) :
    overwrite s o (v ++ [b]) =
      if s.length ≤ o + v.length then overwrite s o v ++ [b] else (overwrite s o v).set (o + v.length) b := by
  have htake : (s.take o).length = o := List.length_take_of_le ho
  simp only [overwrite, List.length_append, List.length_singleton]
  split
  · rename_i hend
    rw [List.drop_eq_nil_of_le hend, List.drop_eq_nil_of_le (by omega)]
    simp
  · rename_i hin
    have hlen : (s.take o ++ v).length = o + v.length := by
      rw [List.length_append, htake]
    rw [List.set_append_right _ _ (by omega), hlen, Nat.sub_self, List.drop_eq_getElem_cons (Nat.lt_of_not_le hin),
      List.set_cons_zero]
    simp [Nat.add_assoc]

/-- The invariant: the bytes of the value that the loop is past stand over those that were there. -/
theorem writeLoop_eq (ho : o ≤ s.length) (done v : Bytes) (hfit : o + (done ++ v).length < 2 ^ 63) :
    writeLoop s.length o (overwrite s o done) done.length v = some (overwrite s o (done ++ v)) := by
  induction v generalizing done with
  | nil => rw [writeLoop, List.append_nil]
  | cons b v ih =>
      have hfit' : o + ((done ++ [b]) ++ v).length < 2 ^ 63 := by
        rwa [List.append_assoc, List.singleton_append]
      have hidx : wrap64 ((o : Int) + done.length) = (o + done.length : Nat) := by
        simp only [List.length_append, List.length_cons] at hfit
        rw [wrap64_of_lt (by omega) (by omega)]
        rfl
      have hnext := ih (done ++ [b]) hfit'
      rw [List.length_append, List.length_singleton, overwrite_append ho, List.append_assoc, List.singleton_append]
        at hnext
      simp only [writeLoop, hidx, Int.toNat_natCast, Int.ofNat_le]
      by_cases hend : s.length ≤ o + done.length
      · rw [if_pos hend] at hnext ⊢
        exact hnext
      · have hlength := overwrite_length ho done
        rw [if_neg hend] at hnext
        rw [if_neg hend, if_neg (by omega)]
        exact hnext

theorem setRange_eq (s : Bytes) (o : Nat) (v : Bytes) (hfit : o + v.length < 2 ^ 63) :
    setRange s o v = some (overwrite (s ++ List.replicate (o - s.length) 0) o v) := by
  have hpad : ((o : Int) - s.length).toNat = o - s.length := by omega
  have ho : o ≤ (s ++ List.replicate (o - s.length) (0 : UInt8)).length := by
    rw [List.length_append, List.length_replicate]
    omega
  have hloop := writeLoop_eq ho [] v hfit
  rw [overwrite_nil] at hloop
  rw [setRange, hpad]
  exact hloop

theorem text_append (s : Slice) (l : Bytes) : text (append s l) = text s ++ l := by
  rw [append]
  split
  · rename_i hnil
    rw [hnil.1, hnil.2]
    rfl
  · rfl

/-- The value stands at its offset; the other bytes are those that were there, or zero. -/
structure Patched (s : Bytes) (o : Nat) (v t : Bytes) : Prop where
  length : t.length = max (max s.length o) (o + v.length)
  written : ∀ i, o ≤ i → i < o + v.length → t[i]? = v[i - o]?
  kept : ∀ i < s.length, ¬ (o ≤ i ∧ i < o + v.length) → t[i]? = s[i]?
  padded : ∀ i, s.length ≤ i → i < t.length → ¬ (o ≤ i ∧ i < o + v.length) → t[i]? = some 0

theorem overwrite_getElem? (ho : o ≤ s.length) (v : Bytes) (i : Nat) :
    (overwrite s o v)[i]? = if o ≤ i ∧ i < o + v.length then v[i - o]? else s[i]? := by
  have htake : (s.take o).length = o := List.length_take_of_le ho
  rw [overwrite, List.append_assoc, List.getElem?_append, htake]
  by_cases hfront : i < o
  · rw [if_pos hfront, if_neg (by omega), List.getElem?_take_of_lt hfront]
  · rw [if_neg hfront, List.getElem?_append]
    by_cases hin : i < o + v.length
    · rw [if_pos (by omega), if_pos (by omega)]
    · rw [if_neg (by omega), if_neg (by omega), List.getElem?_drop]
      congr 1
      omega

theorem setRange_patched {t : Bytes} (hfit : o + v.length < 2 ^ 63) (h : setRange s o v = some t) : Patched s o v t := by
  rw [setRange_eq s o v hfit] at h
  obtain rfl := Option.some.inj h
  have hpad : (s ++ List.replicate (o - s.length) (0 : UInt8)).length = max s.length o := by
    rw [List.length_append, List.length_replicate]
    omega
  have ho : o ≤ (s ++ List.replicate (o - s.length) (0 : UInt8)).length := by omega
  constructor
  · rw [overwrite_length ho, hpad]
  · intro i hlo hhi
    rw [overwrite_getElem? ho, if_pos ⟨hlo, hhi⟩]
  · intro i hi hout
    rw [overwrite_getElem? ho, if_neg hout, List.getElem?_append_left hi]
  · intro i hlo hhi hout
    rw [overwrite_length ho, hpad] at hhi
    rw [overwrite_getElem? ho, if_neg hout, List.getElem?_append_right hlo, List.getElem?_replicate, if_pos (by omega)]

structure SetsRange (env : Env σ) (w : World σ) (key rawOffset value : Slice) (rest : List Slice) (s : Bytes) (o : Nat) :
    Prop where
  stores : ∃ t, (final (execSetRange env (key :: rawOffset :: value :: rest)) w).db.data.lookup (text key) =
      some (.str t) ∧ setRange s o (text value) = some (text t) ∧ Patched s o (text value) (text t)
  shows : text value ≠ [] → ∀ rawStart rawEnd : Slice, parseInt 64 (text rawStart) = some (o : Int) →
    parseInt 64 (text rawEnd) = some (o + (text value).length - 1 : Int) →
    Lib.Effects.value (execGetRange env [key, rawStart, rawEnd])
      (final (execSetRange env (key :: rawOffset :: value :: rest)) w) = some (.bulk (some (text value)))

/-- A key without a value that has a time to live, and one that is over. -/
def Haunted (env : Env σ) (w : World σ) (key : Bytes) : Prop :=
  (w.db.slot key).data = none ∧ (w.db.slot key).isExpired env.now

instance (env : Env σ) (w : World σ) (key : Bytes) : Decidable (Haunted env w key) :=
  inferInstanceAs (Decidable (_ = none ∧ _))

theorem Slot.live_put (s : Slot σ) (e : Entity σ) (t : Int) :
    (⟨some e, (s.evict t).ttl⟩ : Slot σ).live t = if s.data = none ∧ s.isExpired t then none else some e := by
  obtain ⟨data, ttl⟩ := s
  cases data with
  | none =>
      rw [Slot.evict, if_neg (by simp), Slot.live, Slot.isExpired]
      simp only [true_and]
      rfl
  | some old =>
      rw [if_neg (by simp), Slot.live, if_neg]
      rw [Slot.evict]
      split
      · simp [Slot.isExpired, Slot.empty]
      · rename_i hin
        simpa [Slot.isExpired] using hin

theorem execGetRange_of_none {rawStart rawEnd : Slice} {start end_ : Int}
    (hstart : parseInt 64 (text rawStart) = some start) (hend : parseInt 64 (text rawEnd) = some end_)
    (h : w.db.live env (text key) = none) :
    Lib.Effects.value (execGetRange env [key, rawStart, rawEnd]) w = some .nullBulk := by
  apply (wp_iff _ (fun r _ => r = _) w).mp
  simp only [execGetRange, hstart, hend, wp_bind, wp_getAsString, Slot.string, ← DB.live_slot, h, wp_pure]

namespace Patched

variable {t : Bytes} (h : Patched s o v t)
include h

theorem convertRange (hne : v ≠ []) : Database.convertRange o (o + v.length - 1) t.length = (↑o, ↑(o + v.length)) := by
  have hpos : 0 < v.length := List.length_pos_iff.mpr hne
  have hlength : o + v.length ≤ t.length := h.length ▸ Nat.le_max_right _ _
  simp only [Database.convertRange]
  split_ifs <;> rw [Prod.mk.injEq] <;> omega

theorem shown : (t.take (o + v.length)).drop o = v := by
  apply List.ext_getElem?
  intro i
  rw [List.getElem?_drop, List.getElem?_take]
  split
  · rw [h.written _ (by omega) (by omega), Nat.add_sub_cancel_left]
  · rw [List.getElem?_eq_none (by omega)]

end Patched

section

variable {old : Slice} (hold : (w.db.slot (text key)).string env.now = .ok old)
  (hoffset : parseInt 64 (text rawOffset) = some (o : Int)) (hfit : o + (text value).length < 2 ^ 63)
include hold hoffset hfit

theorem execSetRange_slot (rest : List Slice) : ∃ t, setRange (text old) o (text value) = some (text t) ∧
    (final (execSetRange env (key :: rawOffset :: value :: rest)) w).db.slot (text key) =
      ⟨some (.str t), ((w.db.slot (text key)).evict env.now).ttl⟩ := by
  have hpad : ((o : Int) - (text old).length).toNat = o - (text old).length := by omega
  let padded := append old (List.replicate (o - (text old).length) 0)
  let t := if text value = [] then padded else some (overwrite (text padded) o (text value))
  have hpadded : text padded = text old ++ List.replicate (o - (text old).length) 0 := text_append _ _
  refine ⟨t, ?_, ?_⟩
  · rw [setRange_eq _ _ _ hfit, ← hpadded]
    by_cases hnil : text value = []
    · rw [hnil, overwrite_nil]
      simp only [t, if_pos hnil]
    · simp only [t, if_neg hnil]
      rfl
  · have hnext : ¬ ((o : Int) < 0 ∧ text value ≠ []) := by omega
    rw [execSetRange_final]
    simp only [edited, hoffset, Option.map_some]
    rw [afterEdit_some hold (if_neg hnext), Int.toNat_natCast]
    simp only [DB.slot_put, DB.slot_evict, if_pos, hpad]
    rfl

end

noncomputable def renamedToItself : World ℤ :=
  final (execRename (Env.plain 0) [some (bytes "a"), some (bytes "a")])
    (final (execSet (Env.plain 0) [some (bytes "a"), some (bytes "x"), some (bytes "PX"), some (bytes "1")])
      World.empty)

end Traitor.Database
