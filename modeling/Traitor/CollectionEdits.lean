import Traitor.Edits

namespace Traitor.Database

open Lib.Effects Lib.Strconv Protocol

variable {σ : Type} {env : Env σ} {K : List Bytes} {key : Bytes}

abbrev Changes (env : Env σ) (K : List Bytes) : World σ → World σ → Prop :=
  Edits env (fun _ => True) {key | key ∈ K}

theorem put_changes (h : key ∈ K) (e : Entity σ) : Moves (Changes env K) (putEntity key e) :=
  put_edits h trivial

theorem remove_changes (h : key ∈ K) : Moves (Changes env K) (remove key) := remove_edits h

/-- A change of the first key, and the line for it. -/
theorem put_log_changes {key : Slice} {rest : List Slice} (e : Entity σ) (line : CmdLine) (reply : Reply) :
    Moves (Changes env (writeFirstKey (key :: rest)).1) (do
      putEntity (text key) e
      addAof line
      return reply) :=
  (put_changes head_mem _).bind fun _ => (log_edits _).bind fun _ => .pure _

theorem getOrInit_changes {α : Type} (view : Entity σ → Option α) (entity : α → Entity σ) (make : α)
    (h : key ∈ K) : Moves (Changes env K) (getOrInit env view entity make key) := by
  apply (getAs_edits view key).bind
  intro r
  split
  · exact .pure _
  · exact .pure _
  · exact (put_changes h _).bind fun _ => .pure _

theorem insertFront_changes (h : key ∈ K) (l : StoredList Slice) (values : List Slice) :
    Moves (Changes env K) (insertFront env key l values) := by
  induction values generalizing l with
  | nil => exact .pure _
  | cons value values ih =>
      rw [insertFront]
      split
      · exact .panics
      · exact (put_changes h _).bind fun _ => ih _

theorem addBack_changes (h : key ∈ K) (l : StoredList Slice) (values : List Slice) :
    Moves (Changes env K) (addBack env key l values) := by
  induction values generalizing l with
  | nil => exact .pure _
  | cons value values ih => exact (put_changes h _).bind fun _ => ih _

theorem removeEmpty_changes (h : key ∈ K) (l : StoredList Slice) :
    Moves (Changes env K) (removeEmpty key l) := by
  rw [removeEmpty]
  split
  · exact remove_changes h
  · exact .pure _

theorem popLast_changes (h : key ∈ K) (l : StoredList Slice) :
    Moves (Changes env K) (popLast key l) := by
  rw [popLast]
  apply (put_changes h _).bind
  intro _
  split <;> simp

theorem currentList_changes (key : Bytes) (l : StoredList Slice) :
    Moves (Changes env K) (currentList key l) := get_edits.bind fun _ => .pure _

/-- The line is only kept for a change. -/
theorem logIf_changes {α : Type} (c : Prop) [Decidable c] (line : CmdLine) (a : α) :
    Moves (Changes env K) (do
      if c then addAof line
      return a) := by
  dsimp only
  split
  · exact (log_edits _).bind fun _ => .pure _
  · exact .pure _

section

variable (args : List Slice)

theorem execLPush_changes : Moves (Changes env (writeFirstKey args).1) (execLPush env args) := by
  unfold execLPush
  split
  · apply (getOrInit_changes _ _ _ head_mem).bind
    intro r
    split
    · exact .pure _
    · exact (insertFront_changes head_mem _ _).bind fun _ => (log_edits _).bind fun _ => .pure _
  · exact .panics

theorem execLPushX_changes : Moves (Changes env (writeFirstKey args).1) (execLPushX env args) := by
  unfold execLPushX
  split
  · apply (getAs_edits _ _).bind
    intro r
    split
    · exact .pure _
    · exact .pure _
    · exact (insertFront_changes head_mem _ _).bind fun _ => (log_edits _).bind fun _ => .pure _
  · exact .panics

theorem execRPush_changes : Moves (Changes env (writeFirstKey args).1) (execRPush env args) := by
  unfold execRPush
  split
  · apply (getOrInit_changes _ _ _ head_mem).bind
    intro r
    split
    · exact .pure _
    · exact (addBack_changes head_mem _ _).bind fun _ => (log_edits _).bind fun _ => .pure _
  · exact .panics

theorem execRPushX_changes : Moves (Changes env (writeFirstKey args).1) (execRPushX env args) := by
  unfold execRPushX
  split
  · apply (getAs_edits _ _).bind
    intro r
    split
    · exact .pure _
    · exact .pure _
    · exact (addBack_changes head_mem _ _).bind fun _ => (log_edits _).bind fun _ => .pure _
  · exact .pure _

theorem execLPop_changes : Moves (Changes env (writeFirstKey args).1) (execLPop env args) := by
  unfold execLPop
  split
  · apply (getAs_edits _ _).bind
    intro r
    split
    · exact .pure _
    · exact .pure _
    · split
      · exact .panics
      · exact (put_changes head_mem _).bind fun _ => (removeEmpty_changes head_mem _).bind fun _ =>
          (log_edits _).bind fun _ => .pure _
  · exact .panics

theorem execRPop_changes : Moves (Changes env (writeFirstKey args).1) (execRPop env args) := by
  unfold execRPop
  split
  · apply (getAs_edits _ _).bind
    intro r
    split
    · exact .pure _
    · exact .pure _
    · exact (popLast_changes head_mem _).bind fun _ => (removeEmpty_changes head_mem _).bind fun _ =>
        (log_edits _).bind fun _ => .pure _
  · exact .panics

theorem execRPopLPush_changes :
    Moves (Changes env (prepareRPopLPush args).1) (execRPopLPush env args) := by
  unfold execRPopLPush
  split
  · apply (getAs_edits _ _).bind
    intro r
    split
    · exact .pure _
    · exact .pure _
    · apply (getOrInit_changes _ _ _ (by simp [prepareRPopLPush])).bind
      intro r
      split
      · exact .pure _
      · apply (popLast_changes (by simp [prepareRPopLPush]) _).bind
        intro p
        apply (currentList_changes _ _).bind
        intro l
        split
        · exact .panics
        · apply (put_changes (by simp [prepareRPopLPush]) _).bind
          intro _
          apply (currentList_changes _ _).bind
          intro l
          exact (removeEmpty_changes (by simp [prepareRPopLPush]) _).bind fun _ =>
            (log_edits _).bind fun _ => .pure _
  · exact .panics

theorem execLRem_changes : Moves (Changes env (writeFirstKey args).1) (execLRem env args) := by
  unfold execLRem
  split
  · split
    · exact .pure _
    · apply (getAs_edits _ _).bind
      intro r
      split
      · exact .pure _
      · exact .pure _
      · apply (put_changes head_mem _).bind
        intro _
        split
        · exact .panics
        · apply (removeEmpty_changes head_mem _).bind
          intro _
          split
          · exact (log_edits _).bind fun _ => .pure _
          · exact .pure _
  · exact .panics

theorem execLSet_changes : Moves (Changes env (writeFirstKey args).1) (execLSet env args) := by
  unfold execLSet
  split
  · split
    · exact .pure _
    · apply (getAs_edits _ _).bind
      intro r
      split
      · exact .pure _
      · exact .pure _
      · split
        · exact .pure _
        · split
          · exact .panics
          · exact (put_changes head_mem _).bind fun _ => (log_edits _).bind fun _ => .pure _
  · exact .panics

theorem execHSet_changes : Moves (Changes env (writeFirstKey args).1) (execHSet env args) := by
  unfold execHSet
  split
  · apply (getOrInit_changes _ _ _ head_mem).bind
    intro r
    split
    · exact .pure _
    · exact put_log_changes _ _ _
  · exact .panics

theorem execHSetNX_changes : Moves (Changes env (writeFirstKey args).1) (execHSetNX env args) := by
  unfold execHSetNX
  split
  · apply (getOrInit_changes _ _ _ head_mem).bind
    intro r
    split
    · exact .pure _
    · split
      · exact .pure _
      · exact put_log_changes _ _ _
  · exact .panics

theorem execHDel_changes : Moves (Changes env (writeFirstKey args).1) (execHDel env args) := by
  unfold execHDel
  split
  · apply (getAs_edits _ _).bind
    intro r
    split
    · exact .pure _
    · exact .pure _
    · apply (put_changes head_mem _).bind
      intro _
      dsimp only
      split
      · exact (remove_changes head_mem).bind fun _ => logIf_changes _ _ _
      · exact logIf_changes _ _ _
  · exact .panics

theorem execHMSet_changes : Moves (Changes env (writeFirstKey args).1) (execHMSet env args) := by
  unfold execHMSet
  split
  · split
    · exact .pure _
    · apply (getOrInit_changes _ _ _ head_mem).bind
      intro r
      split
      · exact .pure _
      · exact put_log_changes _ _ _
  · exact .pure _

theorem execHIncrBy_changes : Moves (Changes env (writeFirstKey args).1) (execHIncrBy env args) := by
  unfold execHIncrBy
  split
  · split
    · exact .pure _
    · apply (getOrInit_changes _ _ _ head_mem).bind
      intro r
      split
      · exact .pure _
      · split
        · exact put_log_changes _ _ _
        · exact .panics
        · split
          · exact .pure _
          · exact put_log_changes _ _ _
  · exact .panics

theorem execHIncrByFloat_changes :
    Moves (Changes env (writeFirstKey args).1) (execHIncrByFloat env args) := by
  unfold execHIncrByFloat
  split
  · split
    · exact .pure _
    · apply (getOrInit_changes _ _ _ head_mem).bind
      intro r
      split
      · exact .pure _
      · split
        · exact (put_changes head_mem _).bind fun _ => .pure _
        · exact .panics
        · split
          · exact .pure _
          · exact put_log_changes _ _ _
  · exact .panics

theorem execSAdd_changes : Moves (Changes env (writeFirstKey args).1) (execSAdd env args) := by
  unfold execSAdd
  split
  · apply (getOrInit_changes _ _ _ head_mem).bind
    intro r
    split
    · exact .pure _
    · exact put_log_changes _ _ _
  · exact .panics

theorem execSRem_changes : Moves (Changes env (writeFirstKey args).1) (execSRem env args) := by
  unfold execSRem
  split
  · apply (getAs_edits _ _).bind
    intro r
    split
    · exact .pure _
    · exact .pure _
    · apply (put_changes head_mem _).bind
      intro _
      dsimp only
      split
      · exact (remove_changes head_mem).bind fun _ => logIf_changes _ _ _
      · exact logIf_changes _ _ _
  · exact .panics

theorem popMembers_changes (key : Slice) (rest : List Slice) (h : text key ∈ K) :
    Moves (Changes env K) (popMembers env key rest) := by
  apply (getAs_edits _ _).bind
  intro r
  split
  · exact .pure _
  · exact .pure _
  · split
    · exact .pure _
    · dsimp only
      split
      · exact .panics
      · exact (put_changes h _).bind fun _ => logIf_changes _ _ _

theorem execSPop_changes : Moves (Changes env (writeFirstKey args).1) (execSPop env args) := by
  unfold execSPop
  split
  · exact popMembers_changes _ _ head_mem
  · exact popMembers_changes _ _ head_mem
  · exact .pure _

theorem dest_mem {dest : Slice} {keys : List Slice} :
    text dest ∈ (prepareSetCalculateStore (dest :: keys)).1 := by
  simp [prepareSetCalculateStore]

theorem storeSet_changes (name : String) (dest : Slice) (keys : List Slice) (s : Finset Bytes)
    (h : text dest ∈ K) : Moves (Changes env K) (storeSet env name dest keys s) :=
  (put_changes h _).bind fun _ => (log_edits _).bind fun _ => .pure _

theorem execSInterStore_changes :
    Moves (Changes env (prepareSetCalculateStore args).1) (execSInterStore env args) := by
  unfold execSInterStore
  split
  · apply (edits_of_quiet (interLoop_moves env _ _)).bind
    intro r
    split
    · exact .pure _
    · exact (remove_changes dest_mem).bind fun _ => .pure _
    · exact .panics
    · exact storeSet_changes _ _ _ _ dest_mem
  · exact .panics

theorem execSUnionStore_changes :
    Moves (Changes env (prepareSetCalculateStore args).1) (execSUnionStore env args) := by
  unfold execSUnionStore
  split
  · apply (edits_of_quiet (unionLoop_moves env _ _)).bind
    intro r
    split
    · exact .pure _
    · exact (remove_changes dest_mem).bind fun _ => .pure _
    · exact (remove_changes dest_mem).bind fun _ => .pure _
    · exact (remove_changes dest_mem).bind fun _ => storeSet_changes _ _ _ _ dest_mem
  · exact .panics

theorem execSDiffStore_changes :
    Moves (Changes env (prepareSetCalculateStore args).1) (execSDiffStore env args) := by
  unfold execSDiffStore
  split
  · apply (edits_of_quiet (diffLoop_moves env _ _ _)).bind
    intro r
    split
    · exact .pure _
    · exact (remove_changes dest_mem).bind fun _ => .pure _
    · exact (remove_changes dest_mem).bind fun _ => .pure _
    · exact storeSet_changes _ _ _ _ dest_mem
  · exact .panics

theorem logRemoved_changes (name : String) (removed : List (Node σ)) :
    Moves (Changes env K) (logRemoved name args removed) := by
  rw [logRemoved]
  split
  · exact .pure _
  · exact log_edits _

theorem execZRemRangeByRank_changes :
    Moves (Changes env (writeFirstKey args).1) (execZRemRangeByRank env args) := by
  unfold execZRemRangeByRank
  split
  · split
    · exact .pure _
    · split
      · exact .pure _
      · apply (getAs_edits _ _).bind
        intro r
        split
        · exact .pure _
        · exact .pure _
        · split
          · exact .pure _
          · exact (put_changes head_mem _).bind fun _ => (logRemoved_changes _ _ _).bind
              fun _ => .pure _
  · exact .panics

section

variable [LinearOrder σ]

theorem execZRem_changes : Moves (Changes env (writeFirstKey args).1) (execZRem env args) := by
  unfold execZRem
  split
  · apply (getAs_edits _ _).bind
    intro r
    split
    · exact .pure _
    · exact .pure _
    · exact (put_changes head_mem _).bind fun _ => logIf_changes _ _ _
  · exact .panics

theorem addElement_changes (h : key ∈ K) (z : ZSet σ) (member : Bytes) (score : σ) (height : Nat) :
    Moves (Changes env K) (addElement key z member score height) := by
  apply (put_changes h _).bind
  intro _
  split <;> simp

theorem addElements_changes (h : key ∈ K) (z : ZSet σ) (i : Nat) (elements : List (Bytes × σ)) :
    Moves (Changes env K) (addElements env key z i elements) := by
  induction elements generalizing z i with
  | nil => exact .pure _
  | cons e elements ih =>
      exact (addElement_changes h _ _ _ _).bind fun p => (ih _ _).bind fun _ => .pure _

theorem execZAdd_changes : Moves (Changes env (writeFirstKey args).1) (execZAdd env args) := by
  unfold execZAdd
  split
  · split
    · exact .pure _
    · split
      · exact .pure _
      · apply (getOrInit_changes _ _ _ head_mem).bind
        intro r
        split
        · exact .pure _
        · exact (addElements_changes head_mem _ _ _).bind fun _ => .pure _
  · exact .pure _

theorem execZIncrBy_changes : Moves (Changes env (writeFirstKey args).1) (execZIncrBy env args) := by
  unfold execZIncrBy
  split
  · split
    · exact .pure _
    · apply (getOrInit_changes _ _ _ head_mem).bind
      intro r
      split
      · exact .pure _
      · split
        · exact .panics
        · exact (addElement_changes head_mem _ _ _ _).bind fun _ => (log_edits _).bind
            fun _ => .pure _
  · exact .panics

variable [Inhabited σ]

theorem execZPopMin_changes : Moves (Changes env (writeFirstKey args).1) (execZPopMin env args) := by
  unfold execZPopMin
  split
  · split
    · exact .pure _
    · apply (getAs_edits _ _).bind
      intro r
      split
      · exact .pure _
      · exact .pure _
      · exact (put_changes head_mem _).bind fun _ => (logRemoved_changes _ _ _).bind fun _ => .pure _
  · exact .panics

theorem execZRemRangeByScore_changes :
    Moves (Changes env (writeFirstKey args).1) (execZRemRangeByScore env args) := by
  unfold execZRemRangeByScore
  split
  · apply (edits_of_quiet (borders_moves env _ _)).bind
    intro r
    split
    · exact .pure _
    · apply (getAs_edits _ _).bind
      intro r
      split
      · exact .pure _
      · exact .pure _
      · exact (put_changes head_mem _).bind fun _ => (logRemoved_changes _ _ _).bind fun _ => .pure _
  · exact .pure _

/-- A command that gives no key another name edits the keys that it declares to write. -/
theorem command_changes {c : CommandName} (hrename : c ≠ .rename) (hrenameNx : c ≠ .renameNx)
    (args : List Slice) :
    Moves (Changes env ((command env c).prepare args).1) ((command env c).executor args) :=
  match c with
  | .set | .setNx | .setEX | .pSetEX | .mset | .mSetNX | .getEX | .getSet | .getDel | .incr | .incrBy
      | .incrByFloat | .decr | .decrBy | .append | .setRange | .setBit | .del | .expire | .expireAt
      | .pExpire | .pExpireAt | .persist =>
      stringCommand_edits (fun _ => trivial) (by decide) fun _ => id
  | .rename => absurd rfl hrename
  | .renameNx => absurd rfl hrenameNx
  | .lPush => execLPush_changes args
  | .lPushX => execLPushX_changes args
  | .rPush => execRPush_changes args
  | .rPushX => execRPushX_changes args
  | .lPop => execLPop_changes args
  | .rPop => execRPop_changes args
  | .rPopLPush => execRPopLPush_changes args
  | .lRem => execLRem_changes args
  | .lSet => execLSet_changes args
  | .hSet => execHSet_changes args
  | .hSetNX => execHSetNX_changes args
  | .hDel => execHDel_changes args
  | .hMSet => execHMSet_changes args
  | .hIncrBy => execHIncrBy_changes args
  | .hIncrByFloat => execHIncrByFloat_changes args
  | .sAdd => execSAdd_changes args
  | .sRem => execSRem_changes args
  | .sPop => execSPop_changes args
  | .sInterStore => execSInterStore_changes args
  | .sUnionStore => execSUnionStore_changes args
  | .sDiffStore => execSDiffStore_changes args
  | .zAdd => execZAdd_changes args
  | .zIncrBy => execZIncrBy_changes args
  | .zPopMin => execZPopMin_changes args
  | .zRem => execZRem_changes args
  | .zRemRangeByScore => execZRemRangeByScore_changes args
  | .zRemRangeByRank => execZRemRangeByRank_changes args
  | .mget | .get | .strLen | .getRange | .getBit | .bitCount | .bitPos | .ttl | .pttl | .exists_ | .type
      | .keys | .lLen | .lIndex | .lRange | .hExists | .hLen | .hStrlen | .hMGet | .hGet | .hKeys | .hVals
      | .hGetAll | .hRandField | .sIsMember | .sCard | .sMembers | .sInter | .sUnion | .sDiff | .sRandMember
      | .zScore | .zRank | .zCount | .zRevRank | .zCard | .zRange | .zRangeByScore | .zRevRange
      | .zRevRangeByScore | .ping => edits_of_quiet (read_moves env args rfl)

end

end

end Traitor.Database
