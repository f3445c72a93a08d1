import Traitor.Lib.Positions
import Traitor.LostScores
import Traitor.ReplayCommands

namespace Traitor.Database

open Lib.Effects Lib.Strconv Lib.Positions Protocol

variable {σ : Type} {env : Env σ} {w : World σ} {key rawStart rawEnd : Slice} {start end_ : Int}

structure Cuts (n : Nat) (start stop b e : Int) : Prop where
  nonneg : 0 ≤ b
  le : b ≤ e
  le_size : e ≤ n
  covers : ∀ p < n, Covers n start stop p ↔ b.toNat ≤ p ∧ p < e.toNat

theorem sliceRange_cuts {n : Nat} (hn : 0 < n) (start stop : Int) :
    (sliceRange start stop n = none ∧ ∀ p < n, ¬ Covers n start stop p) ∨
      ∃ b e, sliceRange start stop n = some (b, e) ∧ b < n ∧ Cuts n start stop b e := by
  by_cases hout : (n : Int) ≤ start
  · left
    constructor
    · simp only [sliceRange]
      grind
    · intro p hp
      simp only [Covers, fromEnd]
      split_ifs <;> omega
  · right
    have hrange : sliceRange start stop n = some (max 0 (fromEnd n start),
        max (max 0 (fromEnd n start)) (min n (fromEnd n stop + 1))) := by
      simp only [sliceRange, fromEnd]
      grind
    refine ⟨_, _, hrange, ?_, ?_, ?_, ?_, fun p hp => ?_⟩
    all_goals
      simp only [Covers, fromEnd]
      split_ifs <;> omega

/-- A start in front of the first element is not clipped. -/
theorem convertRange_cuts {n : Nat} (hn : 0 < n) {start : Int} (hlow : -n ≤ start) (stop : Int) :
    (convertRange start stop n = (-1, -1) ∧ ∀ p < n, ¬ Covers n start stop p) ∨
      ∃ b e, convertRange start stop n = (b, e) ∧ 0 < e ∧ Cuts n start stop b e := by
  by_cases hnone : (n : Int) ≤ start ∨ stop < -n ∨ fromEnd n stop + 1 < fromEnd n start
  · left
    constructor
    · simp only [convertRange]
      simp only [fromEnd] at hnone
      grind
    · intro p hp
      simp only [Covers, fromEnd] at hnone ⊢
      split_ifs at * <;> omega
  · right
    refine ⟨fromEnd n start, min n (fromEnd n stop + 1), ?_, ?_, ?_, ?_, ?_, fun p hp => ?_⟩
    · simp only [convertRange]
      simp only [fromEnd] at hnone ⊢
      grind
    all_goals
      simp only [Covers, fromEnd] at hnone ⊢
      split_ifs at * <;> omega

section

variable {α : Type} {l : List α} {b e : Int}

theorem Cuts.select (h : Cuts l.length start end_ b e) : select l start end_ = (l.take e.toNat).drop b.toNat :=
  select_eq h.covers

theorem Cuts.leave (h : Cuts l.length start end_ b e) : leave l start end_ = l.take b.toNat ++ l.drop e.toNat := by
  apply leave_eq h.covers
  have hle := h.le
  omega

theorem Cuts.select_take (h : Cuts l.length start end_ b e) :
    Lib.Positions.select l start end_ = (l.drop b.toNat).take (e - b).toNat := by
  have hnonneg := h.nonneg
  rw [h.select, List.drop_take, show e.toNat - b.toNat = (e - b).toNat by omega]

end

/-- Nothing is shown as a null bulk too. -/
def ShowsBytes (r : Option Reply) (s : Bytes) : Prop := r = some (.bulk (some s)) ∨ s = [] ∧ r = some .nullBulk

def ones (s : Bytes) : Int := (s.flatMap BitMap.bits).sum

def StringActs (env : Env σ) (w : World σ) (key rawStart rawEnd : Slice) (s : Bytes) (start end_ : Int) : Prop :=
  ShowsBytes (value (execGetRange env [key, rawStart, rawEnd]) w) (select s start end_) ∧
    ∀ mode, byteMode (rawStart :: rawEnd :: mode) = some true →
      value (execBitCount env (key :: rawStart :: rawEnd :: mode)) w = some (.int (ones (select s start end_)))

section

variable (hstart : parseInt 64 (text rawStart) = some start) (hend : parseInt 64 (text rawEnd) = some end_)
include hstart hend

theorem execGetRange_value {s : Bytes} (h : w.db.live env (text key) = some (.str (some s))) :
    value (execGetRange env [key, rawStart, rawEnd]) w =
      some (if (convertRange start end_ s.length).1 < 0 then .nullBulk
        else .bulk (some ((s.take (convertRange start end_ s.length).2.toNat).drop
          (convertRange start end_ s.length).1.toNat))) := by
  apply (wp_iff _ (fun r _ => r = _) w).mp
  simp only [execGetRange, hstart, hend, wp_bind, wp_getAsString, Slot.string, ← DB.live_slot, h,
    Entity.asString]
  split <;> rfl

theorem execBitCount_value {s : Bytes} (h : w.db.live env (text key) = some (.str (some s))) {mode : List Slice}
    (hmode : byteMode (rawStart :: rawEnd :: mode) = some true) :
    value (execBitCount env (key :: rawStart :: rawEnd :: mode)) w =
      some (.int (if (convertRange start end_ s.length).1 < 0 then 0
        else ones (BitMap.bytesFrom s (convertRange start end_ s.length).1
          (convertRange start end_ s.length).2))) := by
  apply (wp_iff _ (fun r _ => r = _) w).mp
  simp only [execBitCount, hmode, bitRange, bitSize, hstart, hend, wp_bind, wp_getAsString, Slot.string,
    ← DB.live_slot, h, Entity.asString, wp_pure, if_true]
  by_cases hout : (convertRange start end_ s.length).1 < 0
  · simp only [if_pos hout]
    rfl
  · simp only [if_neg hout]
    rfl

end

theorem bytesFrom_eq {s : Bytes} {b e : Int} (hpos : 0 < e) (hle : e ≤ s.length) :
    BitMap.bytesFrom s b e = (s.take e.toNat).drop b.toNat := by
  rw [BitMap.bytesFrom, if_neg (by omega)]

/-- A start in front of the first element counts as out of bound. -/
theorem stringActs_iff {s : Bytes} (hs : s ≠ []) (h : w.db.live env (text key) = some (.str (some s)))
    (hstart : parseInt 64 (text rawStart) = some start) (hend : parseInt 64 (text rawEnd) = some end_) :
    StringActs env w key rawStart rawEnd s start end_ ↔ -s.length ≤ start ∨ end_ < -s.length := by
  have hn : 0 < s.length := List.length_pos_iff.mpr hs
  rw [StringActs, execGetRange_value hstart hend h]
  by_cases hlow : -s.length ≤ start
  · refine iff_of_true ?_ (.inl hlow)
    rcases convertRange_cuts hn hlow end_ with ⟨hout, hnone⟩ | ⟨b, e, hin, hpos, hcuts⟩
    · rw [select_eq_nil hnone]
      refine ⟨.inr ⟨rfl, by rw [hout]; rfl⟩, fun mode hmode => ?_⟩
      rw [execBitCount_value hstart hend h hmode, hout]
      rfl
    · have hb : ¬ b < 0 := Int.not_lt.mpr hcuts.nonneg
      rw [hcuts.select]
      refine ⟨.inl (by rw [hin, if_neg hb]), fun mode hmode => ?_⟩
      rw [execBitCount_value hstart hend h hmode, hin, if_neg hb, bytesFrom_eq hpos hcuts.le_size]
  · have hout : convertRange start end_ s.length = (-1, -1) := by
      rw [convertRange, if_pos (by omega)]
    by_cases hhigh : end_ < -s.length
    · have hnone : ∀ p < s.length, ¬ Covers s.length start end_ p := by
        intro p hp
        simp only [Covers, fromEnd]
        split_ifs <;> omega
      refine iff_of_true ?_ (.inr hhigh)
      rw [select_eq_nil hnone]
      refine ⟨.inr ⟨rfl, by rw [hout]; rfl⟩, fun mode hmode => ?_⟩
      rw [execBitCount_value hstart hend h hmode, hout]
      rfl
    · have hfirst : Covers s.length start end_ 0 := by
        simp only [Covers, fromEnd]
        split_ifs <;> omega
      refine iff_of_false (fun hacts => ?_) (by omega)
      rw [hout] at hacts
      rcases hacts.1 with hbulk | ⟨hnil, -⟩
      · cases hbulk
      · exact select_ne_nil hfirst hnil

/-- Nothing is listed as an empty reply too. -/
def RepliesElements (r : Option Reply) (l : List Slice) : Prop :=
  r = some (.multiBulk l) ∨ l = [] ∧ r = some .emptyMultiBulk

/-- As many elements are listed as the range covers, and the right ones where the pages hold a sequence. -/
def ListActs (env : Env σ) (w : World σ) (key rawStart rawEnd : Slice) (l : StoredList Slice) (start end_ : Int) :
    Prop :=
  (∃ listed, RepliesElements (value (execLRange env [key, rawStart, rawEnd]) w) listed ∧
      listed.length = (select (List.range l.size.toNat) start end_).length) ∧
    ∀ s, l.list.Represents s → RepliesElements (value (execLRange env [key, rawStart, rawEnd]) w) (select s start end_)

theorem execLRange_value {l : StoredList Slice} (hstart : parseInt 64 (text rawStart) = some start)
    (hend : parseInt 64 (text rawEnd) = some end_) (h : w.db.live env (text key) = some (.list l)) :
    value (execLRange env [key, rawStart, rawEnd]) w =
      match sliceRange start end_ l.size with
      | none => some .emptyMultiBulk
      | some (b, e) => (l.range b e).map .multiBulk := by
  apply (wp_iff _ (fun r _ => r = _) w).mp
  simp only [execLRange, hstart, hend, getAsList, wp_bind, wp_getAs, DB.view, h, Entity.asList]
  rcases sliceRange start end_ l.size with _ | ⟨b, e⟩
  · rfl
  · dsimp only
    cases l.range b e <;> rfl

theorem execLRange_acts {l : StoredList Slice} (hl : 0 < l.size)
    (hstart : parseInt 64 (text rawStart) = some start) (hend : parseInt 64 (text rawEnd) = some end_)
    (h : w.db.live env (text key) = some (.list l)) : ListActs env w key rawStart rawEnd l start end_ := by
  obtain ⟨n, hn⟩ := Int.eq_ofNat_of_zero_le (Int.le_of_lt hl)
  rw [ListActs, execLRange_value hstart hend h, hn]
  rcases sliceRange_cuts (show 0 < n by omega) start end_ with ⟨hout, hnone⟩ | ⟨b, e, hin, hb, hcuts⟩
  · rw [hout]
    refine ⟨⟨[], .inr ⟨rfl, rfl⟩, ?_⟩, fun s hs => .inr ⟨select_eq_nil ?_, rfl⟩⟩
    · rw [select_eq_nil]
      · rfl
      · rw [Int.toNat_natCast, List.length_range]
        exact hnone
    · have hsize : l.size = s.length := hs.size
      rw [show s.length = n by omega]
      exact hnone
  · have hcount : Cuts (List.range n).length start end_ b e := by rwa [List.length_range]
    have hle := hcuts.le
    have hlow := hcuts.nonneg
    have hstop := hcuts.le_size
    rw [hin]
    constructor
    · obtain ⟨listed, hlisted, hlength⟩ := l.range_length hlow (hn ▸ hb) hle (hn ▸ hstop)
      refine ⟨listed, .inl (congrArg (Option.map Reply.multiBulk) hlisted), ?_⟩
      rw [Int.toNat_natCast, hcount.select, List.length_drop, List.length_take, List.length_range]
      omega
    · intro s hs
      have hsize : l.size = s.length := hs.size
      have hlen : s.length = n := by omega
      have hrange : l.list.range (b.toNat : Int) e.toNat = some ((s.drop b.toNat).take (e.toNat - b.toNat)) :=
        hs.range (by omega) (by omega) (by omega)
      rw [Int.toNat_of_nonneg hlow, Int.toNat_of_nonneg (by omega)] at hrange
      rw [← hlen] at hcuts
      left
      rw [hcuts.select, List.drop_take]
      exact congrArg (Option.map Reply.multiBulk) hrange

def Scores (env : Env σ) (r : Option Reply) (withScores : Bool) (nodes : List (Node σ)) : Prop :=
  r = some (scored env withScores nodes) ∨ nodes = [] ∧ r = some .emptyMultiBulk

structure SortedSetActs (env : Env σ) (w : World σ) (key rawStart rawEnd : Slice) (z : ZSet σ) (start end_ : Int) :
    Prop where
  zRange : Scores env (value (execZRange env [key, rawStart, rawEnd]) w) false (select z.nodes start end_)
  zRangeScores : ∀ option, toUpper (text option) = bytes "WITHSCORES" →
    Scores env (value (execZRange env [key, rawStart, rawEnd, option]) w) true (select z.nodes start end_)
  zRevRange : Scores env (value (execZRevRange env [key, rawStart, rawEnd]) w) false
    (select z.nodes.reverse start end_)
  zRevRangeScores : ∀ option, text option = bytes "WITHSCORES" →
    Scores env (value (execZRevRange env [key, rawStart, rawEnd, option]) w) true (select z.nodes.reverse start end_)
  removed : value (execZRemRangeByRank env [key, rawStart, rawEnd]) w =
    some (.int (select z.nodes start end_).length)
  left : ∃ z', (final (execZRemRangeByRank env [key, rawStart, rawEnd]) w).db.data.lookup (text key) =
      some (.zset z') ∧ z'.nodes = leave z.nodes start end_ ∧
    z'.dict = ZSet.deleteAll z.dict (select z.nodes start end_)

section

variable {z : ZSet σ} (hz : z.nodes ≠ []) (hstart : parseInt 64 (text rawStart) = some start)
  (hend : parseInt 64 (text rawEnd) = some end_) (h : w.db.live env (text key) = some (.zset z))
include hz hstart hend h

theorem rangeArgs_scores (withScores desc : Bool) :
    Scores env (value (rangeArgs env key rawStart rawEnd withScores desc) w) withScores
      (select (if desc then z.nodes.reverse else z.nodes) start end_) := by
  have hlen : (if desc then z.nodes.reverse else z.nodes).length = z.nodes.length := by
    cases desc <;> simp
  have hvalue : value (rangeArgs env key rawStart rawEnd withScores desc) w =
      match sliceRange start end_ z.len with
      | none => some .emptyMultiBulk
      | some (b, e) => (z.range b e desc).map (scored env withScores) := by
    apply (wp_iff _ (fun r _ => r = _) w).mp
    simp only [rangeArgs, range0, hstart, hend, getAsSortedSet, wp_bind, wp_getAs, DB.view, h,
      Entity.asSortedSet]
    rcases sliceRange start end_ z.len with _ | ⟨b, e⟩
    · rfl
    · dsimp only
      cases z.range b e desc <;> rfl
  have hn : 0 < z.nodes.length := List.length_pos_iff.mpr hz
  rw [hvalue, ZSet.len]
  rcases sliceRange_cuts hn start end_ with ⟨hout, hnone⟩ | ⟨b, e, hin, hb, hcuts⟩
  · rw [hout]
    refine .inr ⟨select_eq_nil ?_, rfl⟩
    rwa [hlen]
  · rw [hin]
    left
    have hle := hcuts.le
    have hlow := hcuts.nonneg
    have hstop := hcuts.le_size
    rw [← hlen] at hcuts
    dsimp only
    rw [hcuts.select_take, ZSet.range, ZSet.len, if_neg (by omega), if_neg (by omega)]
    rfl

omit hz hstart hend h in
theorem wp_logRemoved (name : String) (args : List Slice) (removed : List (Node σ))
    (Q : Option PUnit → World σ → Prop) (w : World σ) : wp (logRemoved name args removed) Q w =
      Q (some ⟨⟩) { w with aof := w.aof ++ if removed = [] then [] else [cmdLine3 name args] } := by
  rw [logRemoved]
  split
  · simp
  · rfl

theorem execZRemRangeByRank_acts :
    value (execZRemRangeByRank env [key, rawStart, rawEnd]) w = some (.int (select z.nodes start end_).length) ∧
      ∃ z', (final (execZRemRangeByRank env [key, rawStart, rawEnd]) w).db.data.lookup (text key) =
          some (.zset z') ∧ z'.nodes = leave z.nodes start end_ ∧
        z'.dict = ZSet.deleteAll z.dict (select z.nodes start end_) := by
  have hn : 0 < z.nodes.length := List.length_pos_iff.mpr hz
  refine (wp_iff _ (fun r w' => r = some (Reply.int (select z.nodes start end_).length) ∧
    ∃ z', w'.db.data.lookup (text key) = some (.zset z') ∧ z'.nodes = leave z.nodes start end_ ∧
      z'.dict = ZSet.deleteAll z.dict (select z.nodes start end_)) w).mp ?_
  simp only [execZRemRangeByRank, hstart, hend, getAsSortedSet, wp_bind, wp_getAs, DB.view, h,
    Entity.asSortedSet, DB.evict_of_live h, ZSet.len]
  rcases sliceRange_cuts hn start end_ with ⟨hout, hnone⟩ | ⟨b, e, hin, hb, hcuts⟩
  · rw [hout, select_eq_nil hnone, leave_eq_self hnone]
    exact ⟨rfl, z, Slot.live_data (DB.live_slot w.db (text key) ▸ h), rfl, rfl⟩
  · have hle := hcuts.le
    have hlow := hcuts.nonneg
    have hstop := hcuts.le_size
    have hbefore : (z.nodes.take b.toNat).length = b.toNat := by
      rw [List.length_take]
      omega
    have hremoved : z.removeByRank b e = ⟨⟨ZSet.deleteAll z.dict (select z.nodes start end_),
        leave z.nodes start end_⟩, select z.nodes start end_⟩ := by
      rw [ZSet.removeByRank, ZSet.removeRangeByRank, Int.add_sub_cancel, hbefore,
        show (e + 1 - ((b.toNat : Int) + 1)).toNat = (e - b).toNat by omega, ← hcuts.select_take]
      have hrest : (z.nodes.drop b.toNat).drop (select z.nodes start end_).length = z.nodes.drop e.toNat := by
        rw [hcuts.select, List.length_drop, List.length_take, List.drop_drop]
        congr 1
        omega
      rw [ZSet.removeMiddle, hrest, hcuts.leave]
    rw [hin]
    simp only [hremoved, putEntity, wp_bind, wp_modifyDB, wp_logRemoved, wp_pure]
    exact ⟨trivial, _, Finmap.lookup_insert _, rfl, rfl⟩

end

/-- A range acts on the positions that it covers: of a list and of a sorted set always, of a string unless it
starts in front of the first byte and ends in the string. -/
theorem index_ranges_iff (env : Env σ) (w : World σ) (key : Slice) (hstart : parseInt 64 (text rawStart) = some start)
    (hend : parseInt 64 (text rawEnd) = some end_) :
    (∀ s, w.db.live env (text key) = some (.str (some s)) → s ≠ [] →
      (StringActs env w key rawStart rawEnd s start end_ ↔ -s.length ≤ start ∨ end_ < -s.length)) ∧
    (∀ l, w.db.live env (text key) = some (.list l) → 0 < l.size →
      ListActs env w key rawStart rawEnd l start end_) ∧
    (∀ z, w.db.live env (text key) = some (.zset z) → z.nodes ≠ [] →
      SortedSetActs env w key rawStart rawEnd z start end_) := by
  refine ⟨fun s h hs => stringActs_iff hs h hstart hend, fun l h hl => execLRange_acts hl hstart hend h,
    fun z h hz => ⟨rangeArgs_scores hz hstart hend h false false, fun option hoption => ?_,
      rangeArgs_scores hz hstart hend h false true, fun option hoption => ?_,
      (execZRemRangeByRank_acts hz hstart hend h).1, (execZRemRangeByRank_acts hz hstart hend h).2⟩⟩
  · rw [execZRange, if_pos hoption]
    exact rangeArgs_scores hz hstart hend h true false
  · rw [execZRevRange, if_pos hoption]
    exact rangeArgs_scores hz hstart hend h true true

theorem index_ranges_iff_whole : StringActs (Env.plain 0)
    { db := World.empty.db.put (bytes "a") (.str (some (bytes "abc"))), aof := [] }
    (some (bytes "a")) (some (bytes "0")) (some (bytes "-1")) (bytes "abc") 0 (-1) := by
  have hstart : parseInt 64 (text (some (bytes "0"))) = some 0 := by decide
  have hend : parseInt 64 (text (some (bytes "-1"))) = some (-1) := by decide
  apply ((index_ranges_iff (Env.plain 0) _ (some (bytes "a")) hstart hend).1 (bytes "abc") rfl (by decide)).mpr
  exact .inl (by decide)

/-- The range of the last five bytes of three is out of bound. -/
theorem index_ranges_fails : ¬ StringActs (Env.plain 0)
    { db := World.empty.db.put (bytes "a") (.str (some (bytes "abc"))), aof := [] }
    (some (bytes "a")) (some (bytes "-5")) (some (bytes "-1")) (bytes "abc") (-5) (-1) := by
  intro hacts
  have hvalue : value (execGetRange (Env.plain 0) [some (bytes "a"), some (bytes "-5"), some (bytes "-1")])
      { db := World.empty.db.put (bytes "a") (.str (some (bytes "abc"))), aof := [] } = some .nullBulk := rfl
  rcases hacts.1 with hbulk | ⟨hnil, -⟩
  · rw [hvalue] at hbulk
    cases hbulk
  · exact absurd hnil (by decide)

end Traitor.Database
