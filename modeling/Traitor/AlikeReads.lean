import Traitor.Alike

namespace Traitor.Database

open Lib.Effects Lib.Strconv Protocol

variable {σ : Type} {env : Env σ} {K : Set Bytes}

section

variable (args : List Slice)

theorem execGet_alike : Alike env K (execGet env args) := by
  unfold execGet
  split
  · apply (getAsString_looks _).bind
    intro r
    split <;> simp
  · simp

theorem readStrings_alike (keys : List Slice) : Alike env K (readStrings env keys) := by
  induction keys generalizing K with
  | nil => simp [readStrings]
  | cons key keys ih =>
      apply (getAsString_looks _).bind
      intro r
      split <;> exact ih.bind fun l => .pure _

theorem execMGet_alike : Alike env K (execMGet env args) :=
  (readStrings_alike args).bind fun _ => .pure _

theorem execStrLen_alike : Alike env K (execStrLen env args) := by
  unfold execStrLen
  split
  · apply (getAsString_looks _).bind
    intro r
    split <;> simp
  · simp

theorem execGetRange_alike : Alike env K (execGetRange env args) := by
  unfold execGetRange
  split
  · repeat' split
    · simp
    · simp
    · apply (getAsString_looks _).bind
      intro r
      repeat' split
      all_goals simp
  · simp

theorem execGetBit_alike : Alike env K (execGetBit env args) := by
  unfold execGetBit
  split
  · split
    · simp
    · apply (getAsString_looks _).bind
      intro r
      repeat' split
      all_goals simp
  · simp

theorem bitRange_alike (size : Int) : Alike env K (bitRange size args) := by
  unfold bitRange
  repeat' split
  all_goals simp

theorem execBitCount_alike : Alike env K (execBitCount env args) := by
  unfold execBitCount
  split
  · apply (getAsString_looks _).bind
    intro r
    split
    · simp
    · simp
    · split
      · simp
      · apply (bitRange_alike _ _).bind
        intro r
        repeat' split
        all_goals simp
  · simp

theorem execBitPos_alike : Alike env K (execBitPos env args) := by
  unfold execBitPos
  split
  · apply (getAsString_looks _).bind
    intro r
    split
    · simp
    · simp
    · split
      · simp
      · split
        · simp
        · apply (bitRange_alike _ _).bind
          intro r
          repeat' split
          all_goals simp
  · simp

theorem countExisting_alike (keys : List Bytes) : Alike env K (countExisting env keys) := by
  induction keys generalizing K with
  | nil => simp [countExisting]
  | cons key keys ih =>
      apply (getEntity_looks key).bind
      intro r
      split
      · exact ih
      · exact ih.bind fun n => .pure _

theorem execExists_alike : Alike env K (execExists env args) :=
  (countExisting_alike _).bind fun _ => .pure _

theorem execType_alike : Alike env K (execType env args) := by
  unfold execType
  split
  · apply (getEntity_looks _).bind
    intro r
    split <;> simp
  · simp

theorem ttlCommand_alike (unit : Int) : Alike env K (ttlCommand env unit args) := by
  unfold ttlCommand
  split
  · apply (getEntity_looks _).bind
    intro r
    split
    · simp
    · apply (getTTL_alike mem_looked).bind
      intro ttl
      split <;> simp
  · simp

theorem execKeys_alike (h : ∀ key, key ∈ K) : Alike env K (execKeys env args) := by
  unfold execKeys
  split
  · split
    · simp
    · intro w w' hw
      have hkeys : w.db.data.keys = w'.db.data.keys := by
        ext key
        have hlookup : w.db.data.lookup key = w'.db.data.lookup key :=
          congrArg Slot.data (hw.2 key (h key))
        rw [Finmap.mem_keys, Finmap.mem_keys, ← Finmap.lookup_isSome, ← Finmap.lookup_isSome, hlookup]
      exact ⟨congrArg (fun keys => some (Reply.multiBulk ((List.filter _
        (env.choices.order keys)).map some))) hkeys, hw⟩
  · simp

theorem execLIndex_alike : Alike env K (execLIndex env args) := by
  unfold execLIndex
  split
  · split
    · simp
    · apply (getAs_looks _ _).bind
      intro r
      repeat' split
      all_goals simp
  · simp

theorem execLLen_alike : Alike env K (execLLen env args) := by
  unfold execLLen
  split
  · apply (getAs_looks _ _).bind
    intro r
    split <;> simp
  · simp

theorem execLRange_alike : Alike env K (execLRange env args) := by
  unfold execLRange
  split
  · split
    · simp
    · split
      · simp
      · apply (getAs_looks _ _).bind
        intro r
        repeat' split
        all_goals simp
  · simp

theorem execHGet_alike : Alike env K (execHGet env args) := by
  unfold execHGet
  split
  · apply (getAs_looks _ _).bind
    intro r
    repeat' split
    all_goals simp
  · simp

theorem execHExists_alike : Alike env K (execHExists env args) := by
  unfold execHExists
  split
  · apply (getAs_looks _ _).bind
    intro r
    split <;> simp
  · simp

theorem execHLen_alike : Alike env K (execHLen env args) := by
  unfold execHLen
  split
  · apply (getAs_looks _ _).bind
    intro r
    split <;> simp
  · simp

theorem execHStrLen_alike : Alike env K (execHStrLen env args) := by
  unfold execHStrLen
  split
  · apply (getAs_looks _ _).bind
    intro r
    repeat' split
    all_goals simp
  · simp

theorem execHMGet_alike : Alike env K (execHMGet env args) := by
  unfold execHMGet
  split
  · apply (getAs_looks _ _).bind
    intro r
    split <;> simp
  · simp

theorem execHKeys_alike : Alike env K (execHKeys env args) := by
  unfold execHKeys
  split
  · apply (getAs_looks _ _).bind
    intro r
    split <;> simp
  · simp

theorem execHVals_alike : Alike env K (execHVals env args) := by
  unfold execHVals
  split
  · apply (getAs_looks _ _).bind
    intro r
    split <;> simp
  · simp

theorem execHGetAll_alike : Alike env K (execHGetAll env args) := by
  unfold execHGetAll
  split
  · apply (getAs_looks _ _).bind
    intro r
    split <;> simp
  · simp

theorem randField_alike (key : Slice) (count : Int) (values : Bool) :
    Alike env K (randField env key count values) := by
  apply (getAs_looks _ _).bind
  intro r
  unfold randFields
  repeat' split
  all_goals simp

theorem execHRandField_alike : Alike env K (execHRandField env args) := by
  unfold execHRandField
  repeat' split
  all_goals first | exact randField_alike _ _ _ | simp

theorem execSIsMember_alike : Alike env K (execSIsMember env args) := by
  unfold execSIsMember
  split
  · apply (getAs_looks _ _).bind
    intro r
    split <;> simp
  · simp

theorem execSCard_alike : Alike env K (execSCard env args) := by
  unfold execSCard
  split
  · apply (getAs_looks _ _).bind
    intro r
    split <;> simp
  · simp

theorem execSMembers_alike : Alike env K (execSMembers env args) := by
  unfold execSMembers
  split
  · apply (getAs_looks _ _).bind
    intro r
    split <;> simp
  · simp

def lookedAt (K : Set Bytes) (keys : List Bytes) : Option Calculated → Set Bytes
  | some (.result _) => K ∪ {key | key ∈ keys}
  | _ => K

theorem lookedAt_cons {key : Bytes} {keys : List Bytes} (r : Option Calculated) :
    lookedAt K (key :: keys) r ⊆ lookedAt (insert key K) keys r := by
  unfold lookedAt
  split
  · intro k hk
    rcases hk with hk | hk
    · exact .inl (.inr hk)
    · rcases List.mem_cons.mp hk with rfl | hk
      · exact .inl (.inl rfl)
      · exact .inr hk
  · exact Set.subset_insert key K

theorem subset_lookedAt {keys : List Bytes} (r : Option Calculated) : K ⊆ lookedAt K keys r := by
  unfold lookedAt
  split
  · exact Set.subset_union_left
  · exact subset_rfl

theorem interLoop_looks (result : Option (Finset Bytes)) (keys : List Bytes) :
    Relates (Similar env K) (fun r => Similar env (lookedAt K keys r)) (interLoop env result keys) := by
  induction keys generalizing result K with
  | nil => exact .pure fun _ _ h => h.anti (by simp [lookedAt])
  | cons key keys ih =>
      refine Relates.bind (getAs_looks _ key) (fun r => ?_) fun _ _ h => h.of_insert
      repeat' split
      all_goals first
        | exact (ih _).mono (fun _ _ h => h) fun _ _ _ h => h.anti (lookedAt_cons _)
        | exact .pure fun _ _ h => h.of_insert

theorem unionLoop_looks (result : Option (Finset Bytes)) (keys : List Bytes) :
    Relates (Similar env K) (fun r => Similar env (lookedAt K keys r)) (unionLoop env result keys) := by
  induction keys generalizing result K with
  | nil => exact .pure fun _ _ h => h.anti (by simp [lookedAt])
  | cons key keys ih =>
      refine Relates.bind (getAs_looks _ key) (fun r => ?_) fun _ _ h => h.of_insert
      repeat' split
      all_goals first
        | exact (ih _).mono (fun _ _ h => h) fun _ _ _ h => h.anti (lookedAt_cons _)
        | exact .pure fun _ _ h => h.of_insert

theorem diffLoop_looks (first : Bool) (result : Option (Finset Bytes)) (keys : List Bytes) :
    Relates (Similar env K) (fun r => Similar env (lookedAt K keys r)) (diffLoop env first result keys) := by
  induction keys generalizing first result K with
  | nil => exact .pure fun _ _ h => h.anti (by simp [lookedAt])
  | cons key keys ih =>
      refine Relates.bind (getAs_looks _ key) (fun r => ?_) fun _ _ h => h.of_insert
      repeat' split
      all_goals first
        | exact (ih _ _).mono (fun _ _ h => h) fun _ _ _ h => h.anti (lookedAt_cons _)
        | exact .pure fun _ _ h => h.of_insert

/-- What follows a loop that only reads. -/
theorem Relates.looked {α : Type} {m : Exec σ Calculated} {f : Calculated → Exec σ α} {keys : List Bytes}
    (hm : Relates (Similar env K) (fun r => Similar env (lookedAt K keys r)) m)
    (hf : ∀ r, Alike env (lookedAt K keys (some r)) (f r)) : Alike env K (m >>= f) :=
  Relates.bind hm (fun r => (hf r).mono (fun _ _ h => h) fun _ _ _ h => h.anti (subset_lookedAt _))
    fun _ _ h => h

theorem execSInter_alike : Alike env K (execSInter env args) := by
  apply Relates.looked (interLoop_looks _ _)
  intro r
  split <;> simp

theorem execSUnion_alike : Alike env K (execSUnion env args) := by
  apply Relates.looked (unionLoop_looks _ _)
  intro r
  split <;> simp

theorem execSDiff_alike : Alike env K (execSDiff env args) := by
  apply Relates.looked (diffLoop_looks _ _ _)
  intro r
  split <;> simp

theorem execSRandMember_alike : Alike env K (execSRandMember env args) := by
  unfold execSRandMember randMembers
  split
  · apply (getAs_looks _ _).bind
    intro r
    repeat' split
    all_goals simp
  · apply (getAs_looks _ _).bind
    intro r
    repeat' split
    all_goals simp
  · simp

theorem execZScore_alike : Alike env K (execZScore env args) := by
  unfold execZScore
  split
  · apply (getAs_looks _ _).bind
    intro r
    repeat' split
    all_goals simp
  · simp

theorem execZCard_alike : Alike env K (execZCard env args) := by
  unfold execZCard
  split
  · apply (getAs_looks _ _).bind
    intro r
    split <;> simp
  · simp

theorem rangeArgs_alike (key rawStart rawStop : Slice) (withScores desc : Bool) :
    Alike env K (rangeArgs env key rawStart rawStop withScores desc) := by
  unfold rangeArgs range0
  split
  · simp
  · split
    · simp
    · apply (getAs_looks _ _).bind
      intro r
      repeat' split
      all_goals simp

theorem execZRange_alike : Alike env K (execZRange env args) := by
  unfold execZRange
  repeat' split
  all_goals first | exact rangeArgs_alike _ _ _ _ _ | simp

theorem execZRevRange_alike : Alike env K (execZRevRange env args) := by
  unfold execZRevRange
  repeat' split
  all_goals first | exact rangeArgs_alike _ _ _ _ _ | simp

theorem ping_alike : Alike env K (ping args : Exec σ Reply) := by
  unfold ping
  split <;> simp

section

variable [LinearOrder σ]

theorem rankCommand_alike (desc : Bool) : Alike env K (rankCommand env desc args) := by
  unfold rankCommand
  split
  · apply (getAs_looks _ _).bind
    intro r
    split
    · simp
    · simp
    · dsimp only
      split <;> simp
  · simp

theorem rangeByScoreArgs_alike (key : Slice) (min max : ScoreBorder σ) (options : List Slice)
    (desc : Bool) : Alike env K (rangeByScoreArgs env key min max options desc) := by
  unfold rangeByScoreArgs rangeByScore0
  split
  · simp
  · apply (getAs_looks _ _).bind
    intro r
    split <;> simp

end

variable [Inhabited σ]

theorem borders_alike (first second : Slice) : Alike env K (borders env first second) := by
  rw [borders]
  repeat' split
  all_goals simp

variable [LinearOrder σ]

theorem execZCount_alike : Alike env K (execZCount env args) := by
  unfold execZCount
  split
  · apply (borders_alike _ _).bind
    intro r
    split
    · simp
    · apply (getAs_looks _ _).bind
      intro r
      repeat' split
      all_goals simp
  · simp

theorem execZRangeByScore_alike : Alike env K (execZRangeByScore env args) := by
  unfold execZRangeByScore
  split
  · apply (borders_alike _ _).bind
    intro r
    split
    · simp
    · exact rangeByScoreArgs_alike _ _ _ _ _
  · simp

theorem execZRevRangeByScore_alike : Alike env K (execZRevRangeByScore env args) := by
  unfold execZRevRangeByScore
  split
  · apply (borders_alike _ _).bind
    intro r
    split
    · simp
    · exact rangeByScoreArgs_alike _ _ _ _ _
  · simp

end

end Traitor.Database
