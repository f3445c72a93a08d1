import Traitor.Bitmaps
import Traitor.ReplayCommands

namespace Traitor.Database

open Lib.Effects Lib.Strconv Protocol

variable {σ : Type} {env : Env σ} {w : World σ} {key : Slice} {s s' : BitMap} {lo mid hi : Nat}

namespace BitMap

def span (lo hi : Nat) : List Nat := List.range' lo (hi - lo)

@[simp] theorem mem_span {o : Nat} : o ∈ span lo hi ↔ lo ≤ o ∧ o < hi := by
  rw [span, List.mem_range'_1]
  omega

theorem span_append (hlo : lo ≤ mid) (hhi : mid ≤ hi) : span lo mid ++ span mid hi = span lo hi := by
  have h := @List.range'_append_1 lo (mid - lo) (hi - mid)
  rwa [show lo + (mid - lo) = mid by omega, show mid - lo + (hi - mid) = hi - lo by omega] at h

theorem span_eq_nil (h : hi ≤ lo) : span lo hi = [] := by
  rw [span, show hi - lo = 0 by omega]
  rfl

theorem bits_eq {byte : UInt8} {i : Nat} (h : s[i]? = some byte) :
    bits byte = (span (8 * i) (8 * (i + 1))).map fun o => (s.bitAt o).toNat := by
  rw [bits, span, show 8 * (i + 1) - 8 * i = 8 by omega, List.range'_eq_map_range, List.map_map]
  apply List.map_congr_left
  intro k hk
  have hk : k < 8 := List.mem_range.mp hk
  rw [bit_eq, Function.comp_apply, bitAt, List.getD_eq_getElem?_getD, show (8 * i + k) / 8 = i by omega, h,
    show (8 * i + k) % 8 = k by omega]
  rfl

theorem bits_mapIdx {byte : UInt8} {i : Nat} (h : s[i]? = some byte) (start : Nat) :
    ((bits byte).drop start).mapIdx (fun k v => ((i : Int) * 8 + start + k, v)) =
      (span (8 * i + start) (8 * (i + 1))).map fun o : Nat => ((o : Int), (s.bitAt o).toNat) := by
  rw [bits_eq h, span, span, ← List.map_drop, List.drop_range']
  apply List.ext_getElem
  · simp
    omega
  · intro k hk hk'
    simp only [List.getElem_mapIdx, List.getElem_map, List.getElem_range', Prod.mk.injEq]
    constructor
    · omega
    · rw [Nat.mul_one]

/-- Where the walk over the bits ends, which looks at the end after each byte. -/
def stop (s : BitMap) (lo hi : Nat) : Nat := if 8 ∣ hi ∧ lo < hi then hi else 8 * s.length

theorem forEachBit_eq {rest : List UInt8} {i : Nat} (hrest : rest = s.drop i) (hi' : lo / 8 ≤ i)
    (hle : hi ≤ 8 * s.length) :
    forEachBit lo hi rest i =
      (span (max lo (8 * i)) (s.stop (8 * i) hi)).map fun o : Nat => ((o : Int), (s.bitAt o).toNat) := by
  induction rest generalizing i with
  | nil =>
      have hout : s.length ≤ i := List.drop_eq_nil_iff.mp hrest.symm
      rw [stop, if_neg (by omega), span_eq_nil (by omega)]
      rfl
  | cons byte rest ih =>
      have hin : i < s.length := by
        by_contra hout
        rw [List.drop_eq_nil_iff.mpr (Nat.le_of_not_lt hout)] at hrest
        cases hrest
      rw [List.drop_eq_getElem_cons hin] at hrest
      obtain ⟨hbyte, hrest⟩ := List.cons.inj hrest
      have hget : s[i]? = some byte := hbyte ▸ List.getElem?_eq_getElem hin
      have hdiv : (lo : Int).tdiv 8 = (lo / 8 : Nat) := rfl
      have hmod : (lo : Int).tmod 8 = (lo % 8 : Nat) := rfl
      have hstart : 8 * i + (if i = lo / 8 then lo % 8 else 0) = max lo (8 * i) := by
        split_ifs <;> omega
      have ih := ih hrest (by omega)
      rw [Nat.cast_add_one] at ih
      simp only [forEachBit, hdiv, hmod, Int.toNat_natCast, Nat.cast_inj]
      rw [bits_mapIdx hget, hstart, ih]
      by_cases hend : 0 < (hi : Int) ∧ ((i : Int) + 1) * 8 = hi
      · rw [if_pos hend, stop, if_pos (by omega), show 8 * (i + 1) = hi by omega]
      · have hsame : s.stop (8 * (i + 1)) hi = s.stop (8 * i) hi := by
          rw [stop, stop]
          split_ifs <;> omega
        have hfar : 8 * (i + 1) ≤ s.stop (8 * i) hi := by
          rw [stop]
          split_ifs <;> omega
        rw [if_neg hend, hsame, ← List.map_append, show max lo (8 * (i + 1)) = 8 * (i + 1) by omega,
          span_append (by omega) hfar]

theorem bitsFrom_eq (hle : hi ≤ 8 * s.length) :
    s.bitsFrom lo hi = (span lo (s.stop lo hi)).map fun o : Nat => ((o : Int), (s.bitAt o).toNat) := by
  have hdiv : (lo : Int).tdiv 8 = (lo / 8 : Nat) := rfl
  have hsame : s.stop (8 * (lo / 8)) hi = s.stop lo hi := by
    rw [stop, stop]
    split_ifs <;> omega
  rw [bitsFrom, hdiv, Int.toNat_natCast, forEachBit_eq rfl (Nat.le_refl _) hle, hsame,
    show max lo (8 * (lo / 8)) = lo by omega]

theorem flatMap_bits (hle : hi ≤ s.length) :
    ((s.take hi).drop lo).flatMap bits = (span (8 * lo) (8 * hi)).map fun o => (s.bitAt o).toNat := by
  induction hd : hi - lo generalizing lo with
  | zero =>
      rw [span_eq_nil (by omega), List.drop_eq_nil_iff.mpr]
      · rfl
      · rw [List.length_take]
        omega
  | succ d ih =>
      have hin : lo < (s.take hi).length := by
        rw [List.length_take]
        omega
      have hget : s[lo]? = some (s.take hi)[lo] := by
        rw [List.getElem_take, List.getElem?_eq_getElem]
      rw [List.drop_eq_getElem_cons hin, List.flatMap_cons, ih (by omega), bits_eq hget, ← List.map_append,
        span_append (by omega) (by omega)]

theorem sum_toNat {α : Type} (p : α → Bool) (l : List α) : (l.map fun a => (p a).toNat).sum = l.countP p := by
  induction l with
  | nil => rfl
  | cons a l ih =>
      rw [List.map_cons, List.sum_cons, ih, List.countP_cons]
      cases p a <;> simp [Nat.add_comm]

end BitMap

inductive BitQuery
  | count
  | pos (v : Bool)

namespace BitQuery

def bit : BitQuery → Bool
  | count => true
  | pos v => v

def exec (env : Env σ) (key : Slice) (range : List Slice) : BitQuery → Exec σ Reply
  | count => execBitCount env (key :: range)
  | pos v => execBitPos env (key :: some (bytes (if v then "1" else "0")) :: range)

def answer (s : BitMap) (lo hi : Nat) : BitQuery → Int
  | count => (BitMap.span lo hi).countP fun o : Nat => s.getBit o = some 1
  | pos v => ((BitMap.span lo hi).find? fun o : Nat => s.getBit o = some v.toNat).elim (-1) Nat.cast

end BitQuery

/-- The bits that a range is for, and whether it counts bytes. -/
inductive Resolves (s : BitMap) : List Slice → Bool → Nat → Nat → Prop
  | whole : Resolves s [] true 0 (8 * s.length)
  | bytewise {rawStart rawEnd : Slice} {mode : List Slice} {start end_ : Int} {beg stop : Nat}
      (hmode : byteMode (rawStart :: rawEnd :: mode) = some true) (hstart : parseInt 64 (text rawStart) = some start)
      (hend : parseInt 64 (text rawEnd) = some end_) (hrange : convertRange start end_ s.length = (↑beg, ↑stop))
      (hle : beg ≤ stop) : Resolves s (rawStart :: rawEnd :: mode) true (8 * beg) (8 * stop)
  | bitwise {rawStart rawEnd : Slice} {mode : List Slice} {start end_ : Int} {beg stop : Nat}
      (hmode : byteMode (rawStart :: rawEnd :: mode) = some false) (hstart : parseInt 64 (text rawStart) = some start)
      (hend : parseInt 64 (text rawEnd) = some end_) (hrange : convertRange start end_ (s.length * 8) = (↑beg, ↑stop))
      (hle : beg ≤ stop) : Resolves s (rawStart :: rawEnd :: mode) false beg stop

theorem convertRange_bounds {start end_ : Int} {n beg stop : Nat} (h : convertRange start end_ n = (↑beg, ↑stop)) :
    beg < n ∧ 0 < stop ∧ stop ≤ n := by
  simp only [convertRange] at h
  split_ifs at h <;> obtain ⟨hbeg, hstop⟩ := Prod.mk.inj h <;> omega

namespace Resolves

variable {range : List Slice} {bytewise : Bool}

/-- A range that is given starts in front of the end of the string. -/
theorem bounds (h : Resolves s range bytewise lo hi) :
    hi ≤ 8 * s.length ∧ (range ≠ [] → lo < 8 * s.length) := by
  cases h with
  | whole => exact ⟨Nat.le_refl _, fun hne => absurd rfl hne⟩
  | bytewise hmode hstart hend hrange hle =>
      have hbounds := convertRange_bounds hrange
      exact ⟨by omega, fun _ => by omega⟩
  | bitwise hmode hstart hend hrange hle =>
      have hrange : convertRange _ _ (s.length * 8 : Nat) = _ := hrange
      have hbounds := convertRange_bounds hrange
      exact ⟨by omega, fun _ => by omega⟩

theorem le (h : Resolves s range bytewise lo hi) : lo ≤ hi := by
  cases h <;> omega

theorem of_length (h : Resolves s range bytewise lo hi) (hlength : s'.length = s.length) :
    Resolves s' range bytewise lo hi := by
  cases h with
  | whole =>
      rw [← hlength]
      exact .whole
  | bytewise hmode hstart hend hrange hle => exact .bytewise hmode hstart hend (hlength ▸ hrange) hle
  | bitwise hmode hstart hend hrange hle => exact .bitwise hmode hstart hend (hlength ▸ hrange) hle

end Resolves

namespace BitQuery

variable {q : BitQuery}

theorem getBit_iff (s : BitMap) (o : Nat) (v : Bool) : s.getBit o = some v.toNat ↔ s.bitAt o = v := by
  rw [BitMap.getBit_eq, Option.some_inj]
  cases s.bitAt o <;> cases v <;> decide

theorem answer_count (s : BitMap) (lo hi : Nat) :
    answer s lo hi count = ((BitMap.span lo hi).countP s.bitAt : Nat) := by
  rw [answer, Nat.cast_inj]
  apply List.countP_congr
  intro o _
  rw [decide_eq_true_iff]
  exact getBit_iff s o true

/-- What is looked at behind the range is told only where it has the bit, and none came before it. -/
theorem answer_eq_iff (hlo : lo ≤ mid) (hhi : mid ≤ hi) :
    answer s lo hi q = answer s lo mid q ↔
      (∃ v, q = pos v ∧ ∃ o : Nat, lo ≤ o ∧ o < mid ∧ s.getBit o = some v.toNat) ∨
        ∀ o : Nat, mid ≤ o → o < hi → s.getBit o ≠ some q.bit.toNat := by
  cases q with
  | count =>
      simp only [answer, ← BitMap.span_append hlo hhi, List.countP_append, Nat.cast_inj]
      rw [Nat.add_eq_left, List.countP_eq_zero]
      simp [bit]
  | pos v =>
      simp only [answer, ← BitMap.span_append hlo hhi, List.find?_append, pos.injEq, exists_eq_left', bit]
      cases hfound : (BitMap.span lo mid).find? fun o : Nat => s.getBit o = some v.toNat with
      | some o =>
          have hmem := List.mem_of_find?_eq_some hfound
          have hbit := List.find?_some hfound
          refine iff_of_true rfl (.inl ⟨o, ?_⟩)
          simpa [and_assoc] using And.intro hmem hbit
      | none =>
          rw [List.find?_eq_none] at hfound
          rw [or_iff_right]
          · cases hnext : (BitMap.span mid hi).find? fun o : Nat => s.getBit o = some v.toNat with
            | some o =>
                have hmem := List.mem_of_find?_eq_some hnext
                have hbit := List.find?_some hnext
                apply iff_of_false
                · simp only [Option.none_or, Option.elim_some, Option.elim_none]
                  omega
                · intro hnot
                  simp only [BitMap.mem_span, decide_eq_true_eq] at hmem hbit
                  exact hnot o hmem.1 hmem.2 hbit
            | none =>
                apply iff_of_true rfl
                intro o hmid hhi
                simpa using List.find?_eq_none.mp hnext o (BitMap.mem_span.mpr ⟨hmid, hhi⟩)
          · rintro ⟨o, hlo, hmid, hbit⟩
            exact hfound o (BitMap.mem_span.mpr ⟨hlo, hmid⟩) (decide_eq_true hbit)

theorem answer_congr (h : ∀ o : Nat, lo ≤ o → o < hi → s'.getBit o = s.getBit o) :
    answer s' lo hi q = answer s lo hi q := by
  cases q with
  | count =>
      rw [answer, answer, Nat.cast_inj]
      apply List.countP_congr
      intro o ho
      rw [h o (BitMap.mem_span.mp ho).1 (BitMap.mem_span.mp ho).2]
  | pos v =>
      rw [answer, answer]
      congr 1
      apply List.find?_congr
      intro o ho
      rw [h o (BitMap.mem_span.mp ho).1 (BitMap.mem_span.mp ho).2]

end BitQuery

section

variable {range : List Slice} {bytewise : Bool} {q : BitQuery}

/-- Where the last bit is that the command looks at. -/
def reached (s : BitMap) (bytewise : Bool) (lo hi : Nat) : BitQuery → Nat
  | .count => if bytewise then hi else s.stop lo hi
  | .pos _ => s.stop lo hi

theorem sum_bytesFrom {beg stop : Nat} (hpos : 0 < stop) (hle : stop ≤ s.length) :
    ((BitMap.bytesFrom s beg stop).flatMap BitMap.bits).sum = (BitMap.span (8 * beg) (8 * stop)).countP s.bitAt := by
  rw [BitMap.bytesFrom, if_neg (by omega), Int.toNat_natCast, Int.toNat_natCast, BitMap.flatMap_bits hle,
    BitMap.sum_toNat]

theorem sum_bitsFrom (hle : hi ≤ 8 * s.length) :
    ((BitMap.bitsFrom s lo hi).map Prod.snd).sum = (BitMap.span lo (s.stop lo hi)).countP s.bitAt := by
  rw [BitMap.bitsFrom_eq hle, List.map_map]
  exact BitMap.sum_toNat _ _

theorem find_bitsFrom (s : BitMap) (lo hi : Nat) (hle : hi ≤ 8 * s.length) (v : Bool) :
    ((BitMap.bitsFrom s lo hi).find? (·.2 = v.toNat)).elim (-1) Prod.fst =
      BitQuery.answer s lo (s.stop lo hi) (.pos v) := by
  rw [BitMap.bitsFrom_eq hle, List.find?_map, BitQuery.answer]
  have hsame : ((fun e : Int × Nat => decide (e.2 = v.toNat)) ∘ fun o : Nat => ((o : Int), (s.bitAt o).toNat)) =
      fun o : Nat => decide (s.getBit o = some v.toNat) := by
    funext o
    simp [BitMap.getBit_eq]
  rw [hsame]
  cases (BitMap.span lo (s.stop lo hi)).find? fun o : Nat => s.getBit o = some v.toNat <;> rfl

theorem count_value (h : w.db.live env (text key) = some (.str (some s))) (hr : Resolves s range bytewise lo hi) :
    value (execBitCount env (key :: range)) w =
      some (.int (BitQuery.answer s lo (reached s bytewise lo hi .count) .count)) := by
  apply (wp_iff _ (fun r _ => r = _) w).mp
  rw [BitQuery.answer_count]
  cases hr with
  | whole =>
      have hsum : ((BitMap.bytesFrom s 0 0).flatMap BitMap.bits).sum =
          (BitMap.span 0 (8 * s.length)).countP s.bitAt := by
        have hbytes : BitMap.bytesFrom s 0 0 = (s.take s.length).drop 0 := by
          rw [BitMap.bytesFrom, if_pos (.inl rfl), Int.toNat_natCast]
          rfl
        rw [hbytes, BitMap.flatMap_bits (Nat.le_refl _), BitMap.sum_toNat]
      simp only [execBitCount, byteMode, bitRange, wp_bind, wp_getAsString, Slot.string, ← DB.live_slot, h,
        Entity.asString, wp_pure, if_true, hsum, reached]
  | @bytewise rawStart rawEnd mode start end_ beg stop hmode hstart hend hrange hle =>
      have hbounds := convertRange_bounds hrange
      have hneg : ¬ (beg : Int) < 0 := by omega
      simp only [execBitCount, hmode, bitRange, bitSize, hstart, hend, hrange, wp_bind, wp_getAsString, Slot.string,
        ← DB.live_slot, h, Entity.asString, wp_pure, if_true, if_neg hneg, reached,
        sum_bytesFrom hbounds.2.1 hbounds.2.2]
  | @bitwise rawStart rawEnd mode start end_ beg stop hmode hstart hend hrange hle =>
      have hbounds := (Resolves.bitwise hmode hstart hend hrange hle).bounds
      have hneg : ¬ (lo : Int) < 0 := by omega
      simp only [execBitCount, hmode, bitRange, bitSize, hstart, hend, hrange, wp_bind, wp_getAsString, Slot.string,
        ← DB.live_slot, h, Entity.asString, wp_pure, if_neg hneg, reached, Bool.false_eq_true, if_false,
        sum_bitsFrom hbounds.1]

theorem parseBit_bit (v : Bool) : parseBit (some (bytes (if v then "1" else "0"))) = some v.toNat := by
  cases v <;> rfl

theorem pos_value (v : Bool) (h : w.db.live env (text key) = some (.str (some s)))
    (hr : Resolves s range bytewise lo hi) :
    value (BitQuery.exec env key range (.pos v)) w =
      some (.int (BitQuery.answer s lo (s.stop lo hi) (.pos v))) := by
  apply (wp_iff _ (fun r _ => r = _) w).mp
  cases hr with
  | whole =>
      have hstop : s.stop 0 (8 * s.length) = s.stop 0 0 := by
        rw [BitMap.stop, BitMap.stop]
        split_ifs <;> omega
      have hfound := find_bitsFrom s 0 0 (Nat.zero_le _) v
      simp only [Nat.cast_zero] at hfound
      simp only [BitQuery.exec, execBitPos, parseBit_bit, byteMode, bitRange, wp_bind, wp_getAsString, Slot.string,
        ← DB.live_slot, h, Entity.asString, wp_pure, if_true, hstop, Int.zero_mul, hfound]
  | @bytewise rawStart rawEnd mode start end_ beg stop hmode hstart hend hrange hle =>
      have hbounds := convertRange_bounds hrange
      have hneg : ¬ (beg : Int) < 0 := by omega
      have hfound := find_bitsFrom s (8 * beg) (8 * stop) (by omega) v
      simp only [Nat.cast_mul, Nat.cast_ofNat, Int.mul_comm 8] at hfound
      simp only [BitQuery.exec, execBitPos, parseBit_bit, hmode, bitRange, bitSize, hstart, hend, hrange, wp_bind,
        wp_getAsString, Slot.string, ← DB.live_slot, h, Entity.asString, wp_pure, if_true, if_neg hneg, hfound]
  | @bitwise rawStart rawEnd mode start end_ beg stop hmode hstart hend hrange hle =>
      have hbounds := (Resolves.bitwise hmode hstart hend hrange hle).bounds
      have hneg : ¬ (lo : Int) < 0 := by omega
      have hfound := find_bitsFrom s lo hi hbounds.1 v
      simp only [BitQuery.exec, execBitPos, parseBit_bit, hmode, bitRange, bitSize, hstart, hend, hrange, wp_bind,
        wp_getAsString, Slot.string, ← DB.live_slot, h, Entity.asString, wp_pure, if_neg hneg, Bool.false_eq_true,
        if_false, hfound]

theorem bitQuery_value (h : w.db.live env (text key) = some (.str (some s)))
    (hr : Resolves s range bytewise lo hi) :
    value (q.exec env key range) w = some (.int (q.answer s lo (reached s bytewise lo hi q))) := by
  cases q with
  | count => exact count_value h hr
  | pos v => exact pos_value v h hr

/-- The reply is about the bits of the range, and those outside have no part in it. -/
structure Scans (env : Env σ) (w : World σ) (key : Slice) (range : List Slice) (q : BitQuery) (s : BitMap)
    (lo hi : Nat) : Prop where
  right : value (q.exec env key range) w = some (.int (q.answer s lo hi))
  inside : ∀ (w' : World σ) (s' : BitMap), w'.db.live env (text key) = some (.str (some s')) →
    s'.length = s.length → (∀ o : Nat, lo ≤ o → o < hi → s'.getBit o = s.getBit o) →
    value (q.exec env key range) w' = value (q.exec env key range) w

def StopsInRange (q : BitQuery) (s : BitMap) (range : List Slice) (bytewise : Bool) (lo hi : Nat) : Prop :=
  range = [] ∨ q = .count ∧ bytewise = true ∨ 8 ∣ hi ∧ lo < hi ∨
    ∃ v, q = .pos v ∧ ∃ o : Nat, lo ≤ o ∧ o < hi ∧ s.getBit o = some v.toNat

theorem reached_ge (hr : Resolves s range bytewise lo hi) : hi ≤ reached s bytewise lo hi q := by
  have hle := hr.bounds.1
  cases q with
  | count =>
      rw [reached, BitMap.stop]
      split_ifs <;> omega
  | pos v =>
      rw [reached, BitMap.stop]
      split_ifs <;> omega

theorem StopsInRange.answer (hr : Resolves s range bytewise lo hi) (h : StopsInRange q s range bytewise lo hi) :
    q.answer s lo (reached s bytewise lo hi q) = q.answer s lo hi := by
  rw [BitQuery.answer_eq_iff hr.le (reached_ge hr)]
  rcases h with rfl | ⟨rfl, rfl⟩ | hend | hfound
  · right
    cases hr
    intro o hlo hhi
    cases q <;> rw [reached, BitMap.stop] at hhi <;> split_ifs at hhi <;> omega
  · right
    intro o hlo hhi
    rw [reached, if_pos rfl] at hhi
    omega
  · right
    intro o hlo hhi
    cases q <;> rw [reached, BitMap.stop] at hhi <;> split_ifs at hhi <;> omega
  · exact .inl hfound

theorem StopsInRange.congr (h : StopsInRange q s range bytewise lo hi)
    (hsame : ∀ o : Nat, lo ≤ o → o < hi → BitMap.getBit s' o = BitMap.getBit s o) :
    StopsInRange q s' range bytewise lo hi := by
  rcases h with hwhole | hcount | hend | ⟨v, hq, o, hlo, hhi, hbit⟩
  · exact .inl hwhole
  · exact .inr (.inl hcount)
  · exact .inr (.inr (.inl hend))
  · exact .inr (.inr (.inr ⟨v, hq, o, hlo, hhi, (hsame o hlo hhi).trans hbit⟩))

/-- A walk that goes on to the last byte tells of a bit that is set behind the range. -/
theorem answer_ne_of_set (hr : Resolves s range bytewise lo hi) (hstop : ¬ StopsInRange q s range bytewise lo hi)
    (hbit : s.getBit hi = some q.bit.toNat) : q.answer s lo (reached s bytewise lo hi q) ≠ q.answer s lo hi := by
  simp only [StopsInRange, not_or] at hstop
  obtain ⟨hrange, hcount, hend, hfound⟩ := hstop
  have hlo := hr.bounds.2 hrange
  have hhi := hr.bounds.1
  rw [Ne, BitQuery.answer_eq_iff hr.le (reached_ge hr)]
  rintro (h | h)
  · exact hfound h
  · refine h hi (Nat.le_refl _) ?_ hbit
    have hle := hr.le
    cases q with
    | count =>
        rw [reached, if_neg (fun hb => hcount ⟨rfl, hb⟩), BitMap.stop, if_neg hend]
        omega
    | pos v =>
        rw [reached, BitMap.stop, if_neg hend]
        omega

theorem live_put {e e' : Entity σ} {k : Bytes} (h : w.db.live env k = some e) : (w.db.put k e').live env k = some e' := by
  rw [DB.live_slot, Slot.live] at h ⊢
  rw [DB.slot_put, if_pos rfl]
  split at h
  · cases h
  · rename_i hin
    exact if_neg hin

theorem bit_queries_iff (h : w.db.live env (text key) = some (.str (some s)))
    (hr : Resolves s range bytewise lo hi) :
    Scans env w key range q s lo hi ↔ StopsInRange q s range bytewise lo hi := by
  constructor
  · rintro ⟨hright, hinside⟩
    by_contra hstop
    have hin : hi / 8 < s.length := by
      simp only [StopsInRange, not_or] at hstop
      have hlo := hr.bounds.2 hstop.1
      have hhi := hr.bounds.1
      omega
    let s' := s.put hi q.bit.toNat
    have hlength : s'.length = s.length := List.length_set
    have hbit (o : Nat) : s'.bitAt o = if o = hi then q.bit else s.bitAt o := by
      rw [BitMap.put_bitAt _ _ hin]
      cases q.bit <;> rfl
    have hsame : ∀ o : Nat, lo ≤ o → o < hi → s'.getBit o = s.getBit o := by
      intro o _ hhi
      rw [BitMap.getBit_eq, BitMap.getBit_eq, hbit, if_neg (Nat.ne_of_lt hhi)]
    let w' : World σ := { w with db := w.db.put (text key) (.str (some s')) }
    have h' : w'.db.live env (text key) = some (.str (some s')) := live_put h
    have hr' := hr.of_length hlength
    have hstop' : ¬ StopsInRange q s' range bytewise lo hi := fun hs =>
      hstop (hs.congr fun o hlo hhi => (hsame o hlo hhi).symm)
    have hset : s'.getBit hi = some q.bit.toNat := by
      rw [BitMap.getBit_eq, hbit, if_pos rfl]
    apply answer_ne_of_set hr' hstop' hset
    have hreply := hinside w' s' h' hlength hsame
    rw [bitQuery_value h' hr', hright, ← BitQuery.answer_congr hsame] at hreply
    exact Reply.int.inj (Option.some.inj hreply)
  · intro hstop
    constructor
    · rw [bitQuery_value h hr, hstop.answer hr]
    · intro w' s' h' hlength hsame
      have hr' := hr.of_length hlength
      rw [bitQuery_value h' hr', (hstop.congr hsame).answer hr', BitQuery.answer_congr hsame, bitQuery_value h hr,
        hstop.answer hr]

end

theorem bit_queries_iff_byte : Scans (Env.plain 0)
    { db := World.empty.db.put (bytes "a") (.str (some [255, 1])), aof := [] } (some (bytes "a"))
    [some (bytes "0"), some (bytes "7"), some (bytes "BIT")] .count [255, 1] 0 8 := by
  have hstart : parseInt 64 (text (some (bytes "0"))) = some 0 := by decide
  have hend : parseInt 64 (text (some (bytes "7"))) = some 7 := by decide
  apply (bit_queries_iff rfl (.bitwise (by decide) hstart hend (by decide) (by decide))).mpr
  exact .inr (.inr (.inl (by decide)))

/-- All eight bits are counted of the first four. -/
theorem bit_queries_fails : Resolves [255] [some (bytes "0"), some (bytes "3"), some (bytes "BIT")] false 0 4 ∧
    ¬ Scans (Env.plain 0) { db := World.empty.db.put (bytes "a") (.str (some [255])), aof := [] } (some (bytes "a"))
      [some (bytes "0"), some (bytes "3"), some (bytes "BIT")] .count [255] 0 4 := by
  have hstart : parseInt 64 (text (some (bytes "0"))) = some 0 := by decide
  have hend : parseInt 64 (text (some (bytes "3"))) = some 3 := by decide
  have hr : Resolves [255] [some (bytes "0"), some (bytes "3"), some (bytes "BIT")] false 0 4 :=
    .bitwise (by decide) hstart hend (by decide) (by decide)
  refine ⟨hr, fun hscans => ?_⟩
  have hreply : value (execBitCount (Env.plain 0) [some (bytes "a"), some (bytes "0"), some (bytes "3"),
      some (bytes "BIT")]) { db := World.empty.db.put (bytes "a") (.str (some [255])), aof := [] } = _ :=
    count_value rfl hr
  have hright := hreply.symm.trans hscans.right
  exact absurd (Reply.int.inj (Option.some.inj hright)) (by decide)

end Traitor.Database
