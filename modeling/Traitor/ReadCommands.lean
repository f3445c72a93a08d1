import Traitor.Reads

namespace Traitor.Database

open Lib.Effects Lib.Strconv Protocol

variable {σ : Type} (env : Env σ)

section

variable (args : List Slice)

theorem execGet_moves : Moves (Quiet env) (execGet env args) := by
  unfold execGet
  split
  · apply (getAsString_moves env _).bind
    intro r
    split <;> simp
  · simp

theorem readStrings_moves (keys : List Slice) : Moves (Quiet env) (readStrings env keys) := by
  induction keys with
  | nil => simp [readStrings]
  | cons key keys ih =>
      apply (getAsString_moves env _).bind
      intro r
      split <;> exact ih.bind fun l => .pure _

theorem execMGet_moves : Moves (Quiet env) (execMGet env args) :=
  (readStrings_moves env args).bind fun _ => .pure _

theorem execStrLen_moves : Moves (Quiet env) (execStrLen env args) := by
  unfold execStrLen
  split
  · apply (getAsString_moves env _).bind
    intro r
    split <;> simp
  · simp

theorem execGetRange_moves : Moves (Quiet env) (execGetRange env args) := by
  unfold execGetRange
  split
  · repeat' split
    · simp
    · simp
    · apply (getAsString_moves env _).bind
      intro r
      repeat' split
      all_goals simp
  · simp

theorem execGetBit_moves : Moves (Quiet env) (execGetBit env args) := by
  unfold execGetBit
  split
  · split
    · simp
    · apply (getAsString_moves env _).bind
      intro r
      repeat' split
      all_goals simp
  · simp

theorem bitRange_moves (size : Int) : Moves (Quiet env) (bitRange size args) := by
  unfold bitRange
  repeat' split
  all_goals simp

theorem execBitCount_moves : Moves (Quiet env) (execBitCount env args) := by
  unfold execBitCount
  split
  · apply (getAsString_moves env _).bind
    intro r
    split
    · simp
    · simp
    · split
      · simp
      · apply (bitRange_moves env _ _).bind
        intro r
        repeat' split
        all_goals simp
  · simp

theorem execBitPos_moves : Moves (Quiet env) (execBitPos env args) := by
  unfold execBitPos
  split
  · apply (getAsString_moves env _).bind
    intro r
    split
    · simp
    · simp
    · split
      · simp
      · split
        · simp
        · apply (bitRange_moves env _ _).bind
          intro r
          repeat' split
          all_goals simp
  · simp

theorem countExisting_moves (keys : List Bytes) : Moves (Quiet env) (countExisting env keys) := by
  induction keys with
  | nil => simp [countExisting]
  | cons key keys ih =>
      apply (getEntity_moves env key).bind
      intro r
      split
      · exact ih
      · exact ih.bind fun n => .pure _

theorem execExists_moves : Moves (Quiet env) (execExists env args) :=
  (countExisting_moves env _).bind fun _ => .pure _

theorem execType_moves : Moves (Quiet env) (execType env args) := by
  unfold execType
  split
  · apply (getEntity_moves env _).bind
    intro r
    split <;> simp
  · simp

theorem ttlCommand_moves (unit : Int) : Moves (Quiet env) (ttlCommand env unit args) := by
  unfold ttlCommand
  split
  · apply (getEntity_moves env _).bind
    intro r
    split
    · simp
    · apply (getTTL_moves env _).bind
      intro ttl
      split <;> simp
  · simp

theorem execKeys_moves : Moves (Quiet env) (execKeys env args) := by
  unfold execKeys
  split
  · split
    · simp
    · exact fun w => refl_of (Quiet env) w
  · simp

theorem execLIndex_moves : Moves (Quiet env) (execLIndex env args) := by
  unfold execLIndex
  split
  · split
    · simp
    · apply (getAs_moves env _ _).bind
      intro r
      repeat' split
      all_goals simp
  · simp

theorem execLLen_moves : Moves (Quiet env) (execLLen env args) := by
  unfold execLLen
  split
  · apply (getAs_moves env _ _).bind
    intro r
    split <;> simp
  · simp

theorem execLRange_moves : Moves (Quiet env) (execLRange env args) := by
  unfold execLRange
  split
  · split
    · simp
    · split
      · simp
      · apply (getAs_moves env _ _).bind
        intro r
        repeat' split
        all_goals simp
  · simp

theorem execHGet_moves : Moves (Quiet env) (execHGet env args) := by
  unfold execHGet
  split
  · apply (getAs_moves env _ _).bind
    intro r
    repeat' split
    all_goals simp
  · simp

theorem execHExists_moves : Moves (Quiet env) (execHExists env args) := by
  unfold execHExists
  split
  · apply (getAs_moves env _ _).bind
    intro r
    split <;> simp
  · simp

theorem execHLen_moves : Moves (Quiet env) (execHLen env args) := by
  unfold execHLen
  split
  · apply (getAs_moves env _ _).bind
    intro r
    split <;> simp
  · simp

theorem execHStrLen_moves : Moves (Quiet env) (execHStrLen env args) := by
  unfold execHStrLen
  split
  · apply (getAs_moves env _ _).bind
    intro r
    repeat' split
    all_goals simp
  · simp

theorem execHMGet_moves : Moves (Quiet env) (execHMGet env args) := by
  unfold execHMGet
  split
  · apply (getAs_moves env _ _).bind
    intro r
    split <;> simp
  · simp

theorem execHKeys_moves : Moves (Quiet env) (execHKeys env args) := by
  unfold execHKeys
  split
  · apply (getAs_moves env _ _).bind
    intro r
    split <;> simp
  · simp

theorem execHVals_moves : Moves (Quiet env) (execHVals env args) := by
  unfold execHVals
  split
  · apply (getAs_moves env _ _).bind
    intro r
    split <;> simp
  · simp

theorem execHGetAll_moves : Moves (Quiet env) (execHGetAll env args) := by
  unfold execHGetAll
  split
  · apply (getAs_moves env _ _).bind
    intro r
    split <;> simp
  · simp

theorem randField_moves (key : Slice) (count : Int) (values : Bool) :
    Moves (Quiet env) (randField env key count values) := by
  apply (getAs_moves env _ _).bind
  intro r
  unfold randFields
  repeat' split
  all_goals simp

theorem execHRandField_moves : Moves (Quiet env) (execHRandField env args) := by
  unfold execHRandField
  repeat' split
  all_goals first | exact randField_moves env _ _ _ | simp

theorem execSIsMember_moves : Moves (Quiet env) (execSIsMember env args) := by
  unfold execSIsMember
  split
  · apply (getAs_moves env _ _).bind
    intro r
    split <;> simp
  · simp

theorem execSCard_moves : Moves (Quiet env) (execSCard env args) := by
  unfold execSCard
  split
  · apply (getAs_moves env _ _).bind
    intro r
    split <;> simp
  · simp

theorem execSMembers_moves : Moves (Quiet env) (execSMembers env args) := by
  unfold execSMembers
  split
  · apply (getAs_moves env _ _).bind
    intro r
    split <;> simp
  · simp

theorem interLoop_moves (result : Option (Finset Bytes)) (keys : List Bytes) :
    Moves (Quiet env) (interLoop env result keys) := by
  induction keys generalizing result with
  | nil => simp [interLoop]
  | cons key keys ih =>
      apply (getAs_moves env _ _).bind
      intro r
      repeat' split
      all_goals first | exact ih _ | simp

theorem unionLoop_moves (result : Option (Finset Bytes)) (keys : List Bytes) :
    Moves (Quiet env) (unionLoop env result keys) := by
  induction keys generalizing result with
  | nil => simp [unionLoop]
  | cons key keys ih =>
      apply (getAs_moves env _ _).bind
      intro r
      repeat' split
      all_goals first | exact ih _ | simp

theorem diffLoop_moves (first : Bool) (result : Option (Finset Bytes)) (keys : List Bytes) :
    Moves (Quiet env) (diffLoop env first result keys) := by
  induction keys generalizing first result with
  | nil => simp [diffLoop]
  | cons key keys ih =>
      apply (getAs_moves env _ _).bind
      intro r
      repeat' split
      all_goals first | exact ih _ _ | simp

theorem execSInter_moves : Moves (Quiet env) (execSInter env args) := by
  apply (interLoop_moves env _ _).bind
  intro r
  split <;> simp

theorem execSUnion_moves : Moves (Quiet env) (execSUnion env args) := by
  apply (unionLoop_moves env _ _).bind
  intro r
  split <;> simp

theorem execSDiff_moves : Moves (Quiet env) (execSDiff env args) := by
  apply (diffLoop_moves env _ _ _).bind
  intro r
  split <;> simp

theorem execSRandMember_moves : Moves (Quiet env) (execSRandMember env args) := by
  unfold execSRandMember randMembers
  split
  · apply (getAs_moves env _ _).bind
    intro r
    repeat' split
    all_goals simp
  · apply (getAs_moves env _ _).bind
    intro r
    repeat' split
    all_goals simp
  · simp

theorem execZScore_moves : Moves (Quiet env) (execZScore env args) := by
  unfold execZScore
  split
  · apply (getAs_moves env _ _).bind
    intro r
    repeat' split
    all_goals simp
  · simp

theorem execZCard_moves : Moves (Quiet env) (execZCard env args) := by
  unfold execZCard
  split
  · apply (getAs_moves env _ _).bind
    intro r
    split <;> simp
  · simp

theorem rangeArgs_moves (key rawStart rawStop : Slice) (withScores desc : Bool) :
    Moves (Quiet env) (rangeArgs env key rawStart rawStop withScores desc) := by
  unfold rangeArgs range0
  split
  · simp
  · split
    · simp
    · apply (getAs_moves env _ _).bind
      intro r
      repeat' split
      all_goals simp

theorem execZRange_moves : Moves (Quiet env) (execZRange env args) := by
  unfold execZRange
  repeat' split
  all_goals first | exact rangeArgs_moves env _ _ _ _ _ | simp

theorem execZRevRange_moves : Moves (Quiet env) (execZRevRange env args) := by
  unfold execZRevRange
  repeat' split
  all_goals first | exact rangeArgs_moves env _ _ _ _ _ | simp

theorem ping_moves : Moves (Quiet env) (ping args : Exec σ Reply) := by
  unfold ping
  split <;> simp

section

variable [LinearOrder σ]

theorem rankCommand_moves (desc : Bool) : Moves (Quiet env) (rankCommand env desc args) := by
  unfold rankCommand
  split
  · apply (getAs_moves env _ _).bind
    intro r
    split
    · simp
    · simp
    · dsimp only
      split <;> simp
  · simp

theorem rangeByScoreArgs_moves (key : Slice) (min max : ScoreBorder σ) (options : List Slice)
    (desc : Bool) : Moves (Quiet env) (rangeByScoreArgs env key min max options desc) := by
  unfold rangeByScoreArgs rangeByScore0
  split
  · simp
  · apply (getAs_moves env _ _).bind
    intro r
    split <;> simp

end

variable [Inhabited σ]

theorem borders_moves (first second : Slice) : Moves (Quiet env) (borders env first second) := by
  rw [borders]
  repeat' split
  all_goals simp

variable [LinearOrder σ]

theorem execZCount_moves : Moves (Quiet env) (execZCount env args) := by
  unfold execZCount
  split
  · apply (borders_moves env _ _).bind
    intro r
    split
    · simp
    · apply (getAs_moves env _ _).bind
      intro r
      repeat' split
      all_goals simp
  · simp

theorem execZRangeByScore_moves : Moves (Quiet env) (execZRangeByScore env args) := by
  unfold execZRangeByScore
  split
  · apply (borders_moves env _ _).bind
    intro r
    split
    · simp
    · exact rangeByScoreArgs_moves env _ _ _ _ _
  · simp

theorem execZRevRangeByScore_moves : Moves (Quiet env) (execZRevRangeByScore env args) := by
  unfold execZRevRangeByScore
  split
  · apply (borders_moves env _ _).bind
    intro r
    split
    · simp
    · exact rangeByScoreArgs_moves env _ _ _ _ _
  · simp

end

section

theorem toTTLCmd_moves (key : Bytes) : Moves (Quiet env) (toTTLCmd key) := by
  apply (getTTL_moves env key).bind
  intro r
  split <;> simp

theorem rollbackGivenKeys_moves (keys : List Bytes) :
    Moves (Quiet env) (rollbackGivenKeys env keys) := by
  induction keys with
  | nil => exact .pure _
  | cons key keys ih =>
      apply (getEntity_moves env key).bind
      intro r
      split
      · exact ih.bind fun _ => .pure _
      · split
        · exact .panics
        · exact (toTTLCmd_moves env key).bind fun _ => ih.bind fun _ => .pure _

theorem rollbackItems_moves {α : Type} (view : Entity σ → Option α)
    (restore : α → Bytes → Option CmdLine) (key : Bytes) (items : List Bytes) :
    Moves (Quiet env) (rollbackItems env view restore key items) := by
  apply (getAs_moves env view key).bind
  intro r
  split
  · exact .pure _
  · exact .pure _
  · split
    · exact .panics
    · exact .pure _

theorem undoElement_moves (key : Bytes) (index : Int → Option Int) (lines : Slice → List CmdLine) :
    Moves (Quiet env) (undoElement env key index lines) := by
  apply (getAs_moves env _ key).bind
  intro r
  split
  · exact .pure _
  · exact .pure _
  · split
    · exact .pure _
    · split
      · exact .panics
      · exact .pure _

variable (args : List Slice)

theorem rollbackFirstKey_moves : Moves (Quiet env) (rollbackFirstKey env args) := by
  unfold rollbackFirstKey
  split
  · exact rollbackGivenKeys_moves env _
  · exact .panics

theorem undoSetChange_moves : Moves (Quiet env) (undoSetChange env args) := by
  unfold undoSetChange
  split
  · exact rollbackItems_moves env _ _ _ _
  · exact .panics

theorem undoRename_moves : Moves (Quiet env) (undoRename env args) := by
  unfold undoRename
  split
  · exact rollbackGivenKeys_moves env _
  · exact .panics

theorem undoExpire_moves : Moves (Quiet env) (undoExpire args) := by
  unfold undoExpire
  split
  · exact (toTTLCmd_moves env _).bind fun _ => .pure _
  · exact .panics

theorem undoHSet_moves : Moves (Quiet env) (undoHSet env args) := by
  unfold undoHSet
  split
  · exact rollbackItems_moves env _ _ _ _
  · exact .panics

theorem undoHDel_moves : Moves (Quiet env) (undoHDel env args) := by
  unfold undoHDel
  split
  · exact rollbackItems_moves env _ _ _ _
  · exact .panics

theorem undoHMSet_moves : Moves (Quiet env) (undoHMSet env args) := by
  unfold undoHMSet
  split
  · exact rollbackItems_moves env _ _ _ _
  · exact .panics

theorem undoZAdd_moves : Moves (Quiet env) (undoZAdd env args) := by
  unfold undoZAdd
  split
  · exact rollbackItems_moves env _ _ _ _
  · exact .panics

theorem undoZRem_moves : Moves (Quiet env) (undoZRem env args) := by
  unfold undoZRem
  split
  · exact rollbackItems_moves env _ _ _ _
  · exact .panics

theorem undoZIncr_moves : Moves (Quiet env) (undoZIncr env args) := by
  unfold undoZIncr
  split
  · exact rollbackItems_moves env _ _ _ _
  · exact .panics

theorem undoLPop_moves : Moves (Quiet env) (undoLPop env args) := by
  unfold undoLPop
  split
  · exact undoElement_moves env _ _ _
  · exact .panics

theorem undoLPush_moves : Moves (Quiet env) (undoLPush args) := by
  unfold undoLPush
  split
  · exact .pure _
  · exact .panics

theorem undoLSet_moves : Moves (Quiet env) (undoLSet env args) := by
  unfold undoLSet
  split
  · split
    · exact .pure _
    · exact undoElement_moves env _ _ _
  · exact .panics

theorem undoRPop_moves : Moves (Quiet env) (undoRPop env args) := by
  unfold undoRPop
  split
  · exact undoElement_moves env _ _ _
  · exact .panics

theorem undoRPopLPush_moves : Moves (Quiet env) (undoRPopLPush env args) := by
  unfold undoRPopLPush
  split
  · exact undoElement_moves env _ _ _
  · exact .panics

theorem undoRPush_moves : Moves (Quiet env) (undoRPush args) := by
  unfold undoRPush
  split
  · exact .pure _
  · exact .panics

/-- A command that is registered without a function for its undo lines changes nothing but expired keys. -/
theorem read_moves [LinearOrder σ] [Inhabited σ] {c : CommandName} (h : (command env c).undo = none) :
    Moves (Quiet env) ((command env c).executor args) := by
  cases c with
  | mget => exact execMGet_moves env args
  | get => exact execGet_moves env args
  | strLen => exact execStrLen_moves env args
  | getRange => exact execGetRange_moves env args
  | getBit => exact execGetBit_moves env args
  | bitCount => exact execBitCount_moves env args
  | bitPos => exact execBitPos_moves env args
  | ttl => exact ttlCommand_moves env args _
  | pttl => exact ttlCommand_moves env args _
  | exists_ => exact execExists_moves env args
  | type => exact execType_moves env args
  | keys => exact execKeys_moves env args
  | lLen => exact execLLen_moves env args
  | lIndex => exact execLIndex_moves env args
  | lRange => exact execLRange_moves env args
  | hExists => exact execHExists_moves env args
  | hLen => exact execHLen_moves env args
  | hStrlen => exact execHStrLen_moves env args
  | hMGet => exact execHMGet_moves env args
  | hGet => exact execHGet_moves env args
  | hKeys => exact execHKeys_moves env args
  | hVals => exact execHVals_moves env args
  | hGetAll => exact execHGetAll_moves env args
  | hRandField => exact execHRandField_moves env args
  | sIsMember => exact execSIsMember_moves env args
  | sCard => exact execSCard_moves env args
  | sMembers => exact execSMembers_moves env args
  | sInter => exact execSInter_moves env args
  | sUnion => exact execSUnion_moves env args
  | sDiff => exact execSDiff_moves env args
  | sRandMember => exact execSRandMember_moves env args
  | zScore => exact execZScore_moves env args
  | zRank => exact rankCommand_moves env args _
  | zCount => exact execZCount_moves env args
  | zRevRank => exact rankCommand_moves env args _
  | zCard => exact execZCard_moves env args
  | zRange => exact execZRange_moves env args
  | zRangeByScore => exact execZRangeByScore_moves env args
  | zRevRange => exact execZRevRange_moves env args
  | zRevRangeByScore => exact execZRevRangeByScore_moves env args
  | ping => exact ping_moves env args
  | _ => cases h

/-- Looking for the lines that undo a command only reads. -/
theorem undo_moves [LinearOrder σ] [Inhabited σ] (c : CommandName)
    (undo : List Slice → Exec σ (List CmdLine)) (h : (command env c).undo = some undo) :
    Moves (Quiet env) (undo args) := by
  cases c
  case set | setNx | setEX | pSetEX | getEX | getSet | getDel | incr | incrBy | incrByFloat
      | decr | decrBy | append | setRange | setBit | lRem | sInterStore | sUnionStore
      | sDiffStore | zPopMin | zRemRangeByScore | zRemRangeByRank =>
    cases h
    exact rollbackFirstKey_moves env args
  case mset | mSetNX =>
    cases h
    exact rollbackGivenKeys_moves env _
  case mget | get | strLen | getRange | getBit | bitCount | bitPos | ttl | pttl | exists_
      | type | keys | lLen | lIndex | lRange | hExists | hLen | hStrlen | hMGet | hGet | hKeys
      | hVals | hGetAll | hRandField | sIsMember | sCard | sMembers | sInter | sUnion | sDiff
      | sRandMember | zScore | zRank | zCount | zRevRank | zCard | zRange | zRangeByScore
      | zRevRange | zRevRangeByScore | ping =>
    cases h
  case del =>
    cases h
    exact rollbackGivenKeys_moves env _
  case expire | expireAt | pExpire | pExpireAt | persist =>
    cases h
    exact undoExpire_moves env args
  case rename | renameNx =>
    cases h
    exact undoRename_moves env args
  case lPush | lPushX =>
    cases h
    exact undoLPush_moves env args
  case rPush | rPushX =>
    cases h
    exact undoRPush_moves env args
  case lPop =>
    cases h
    exact undoLPop_moves env args
  case rPop =>
    cases h
    exact undoRPop_moves env args
  case rPopLPush =>
    cases h
    exact undoRPopLPush_moves env args
  case lSet =>
    cases h
    exact undoLSet_moves env args
  case hSet | hSetNX =>
    cases h
    exact undoHSet_moves env args
  case hDel =>
    cases h
    exact undoHDel_moves env args
  case hMSet =>
    cases h
    exact undoHMSet_moves env args
  case hIncrBy | hIncrByFloat =>
    cases h
    exact undoHSet_moves env args
  case sAdd | sRem | sPop =>
    cases h
    exact undoSetChange_moves env args
  case zAdd =>
    cases h
    exact undoZAdd_moves env args
  case zIncrBy =>
    cases h
    exact undoZIncr_moves env args
  case zRem =>
    cases h
    exact undoZRem_moves env args
end

end Traitor.Database
