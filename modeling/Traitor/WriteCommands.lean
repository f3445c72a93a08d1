import Traitor.Journal
import Traitor.ReadCommands

namespace Traitor.Database

open Lib.Effects Lib.Strconv Protocol

variable {σ : Type} (env : Env σ)

def Verbatim (name : String) (args : List Slice) (lines : List CmdLine) : Prop :=
  lines = [cmdLine3 name args]

theorem verbatim (name : String) (args : List Slice) : Verbatim name args [cmdLine3 name args] := rfl

theorem silent_putPairs (l : List (Slice × Slice)) : Silent (putPairs l : Exec σ PUnit) := by
  induction l with
  | nil => exact .pure _
  | cons p l ih => exact .bind (.modifyDB _) fun _ => ih

section

variable (args : List Slice)

theorem execMSet_journals : Journals env (Verbatim "mset" args) (execMSet args) := by
  unfold execMSet
  split
  · simp
  · exact .of_commits (.bind (silent_putPairs _) fun _ => .log (.pure rfl (verbatim _ _)))

theorem anyExists_moves (keys : List Bytes) : Moves (Quiet env) (anyExists env keys) := by
  induction keys with
  | nil => simp [anyExists]
  | cons key keys ih =>
      refine (getEntity_moves env key).bind fun r => ?_
      split
      · simp
      · exact ih

theorem execMSetNX_journals : Journals env (Verbatim "msetnx" args) (execMSetNX env args) := by
  unfold execMSetNX
  split
  · simp
  · refine .bind (anyExists_moves env _) fun b => ?_
    split
    · simp
    · exact .of_commits (.bind (silent_putPairs _) fun _ => .log (.pure rfl (verbatim _ _)))

theorem execSetNX_journals : Journals env (Verbatim "setnx" args) (execSetNX args) := by
  unfold execSetNX
  split
  · refine .of_commits (.bind ?_ fun n => .log (.pure rfl (verbatim _ _)))
    refine .bind (.map .get) fun b => ?_
    split
    · exact .pure _
    · exact .bind (.modifyDB _) fun _ => .pure _
  · simp

theorem addInteger_journals (name : String) (key : Bytes) (delta : Int) (initial : Slice)
    (first : Int) :
    Journals env (Verbatim name args) (addInteger env name args key delta initial first) := by
  refine .bind (getAsString_moves env key) fun r => ?_
  split
  · simp
  · exact .of_commits (.put _ (.log (.pure rfl (verbatim _ _))))
  · split
    · simp
    · exact .of_commits (.put _ (.log (.pure rfl (verbatim _ _))))

theorem execIncr_journals : Journals env (Verbatim "incr" args) (execIncr env args) := by
  unfold execIncr
  split
  · exact addInteger_journals env _ _ _ _ _ _
  · simp

theorem execDecr_journals : Journals env (Verbatim "decr" args) (execDecr env args) := by
  unfold execDecr
  split
  · exact addInteger_journals env _ _ _ _ _ _
  · simp

theorem execIncrBy_journals : Journals env (Verbatim "incrby" args) (execIncrBy env args) := by
  unfold execIncrBy
  split
  · split
    · simp
    · exact addInteger_journals env _ _ _ _ _ _
  · simp

theorem execDecrBy_journals : Journals env (Verbatim "decrby" args) (execDecrBy env args) := by
  unfold execDecrBy
  split
  · split
    · simp
    · exact addInteger_journals env _ _ _ _ _ _
  · simp

theorem execIncrByFloat_journals :
    Journals env (Verbatim "incrbyfloat" args) (execIncrByFloat env args) := by
  unfold execIncrByFloat
  split
  · split
    · simp [notFloat]
    · refine .bind (getAsString_moves env _) fun r => ?_
      split
      · simp
      · exact .of_commits (.put _ (.log (.pure (by simp) (verbatim _ _))))
      · split
        · simp
        · exact .of_commits (.put _ (.log (.pure (by simp) (verbatim _ _))))
  · simp

theorem execAppend_journals : Journals env (Verbatim "append" args) (execAppend env args) := by
  unfold execAppend
  split
  · refine .bind (getAsString_moves env _) fun r => ?_
    split
    · simp
    · exact .of_commits (.put _ (.log (.pure rfl (verbatim _ _))))
  · simp

theorem execSetRange_journals :
    Journals env (Verbatim "setRange" args) (execSetRange env args) := by
  unfold execSetRange
  split
  · split
    · simp
    · refine .bind (getAsString_moves env _) fun r => ?_
      split
      · simp
      · dsimp only
        split
        · simp
        · exact .of_commits (.put _ (.log (.pure rfl (verbatim _ _))))
  · simp

theorem execGetSet_journals : Journals env (Verbatim "set" args) (execGetSet env args) := by
  unfold execGetSet
  split
  · refine .bind (getAsString_moves env _) fun r => ?_
    split
    · simp
    · refine .of_commits (.put _ (.put _ (.log ?_)))
      split
      · exact .pure rfl (verbatim _ _)
      · exact .pure (by simp) (verbatim _ _)
  · simp

theorem execGetDel_journals : Journals env (Verbatim "del" args) (execGetDel env args) := by
  unfold execGetDel
  split
  · refine .bind (getAsString_moves env _) fun r => ?_
    split
    · simp
    · simp
    · exact .of_commits (.put _ (.log (.pure (by simp) (verbatim _ _))))
  · simp

/-- Nothing is removed when the answer is zero. -/
theorem wp_removes (keys : List Bytes) (w : World σ) :
    wp (removes keys) (fun r w' => ∃ n, r = some n ∧ 0 ≤ n ∧ (n = 0 → w' = w) ∧ w'.aof = w.aof) w := by
  induction keys generalizing w with
  | nil => exact ⟨0, rfl, Int.le_refl 0, fun _ => rfl, rfl⟩
  | cons key keys ih =>
      simp only [removes, has, wp_bind, wp_get, wp_pure]
      split
      · simp only [wp_bind, remove, wp_modifyDB, wp_pure]
        refine wp_mono (ih _) fun r w' h => ?_
        obtain ⟨n, rfl, hn, -, haof⟩ := h
        exact ⟨1 + n, rfl, by omega, fun h => by omega, haof⟩
      · exact ih w

theorem execDel_journals : Journals env (Verbatim "del" args) (execDel args) := by
  intro w
  rw [execDel, JournalsAt, wp_bind]
  refine wp_mono (wp_removes _ w) fun r w' h => ?_
  obtain ⟨n, rfl, hn, hzero, haof⟩ := h
  by_cases hpos : 0 < n
  · simp only [if_pos hpos]
    exact .inr ⟨.int n, _, rfl, rfl, congrArg (· ++ _) haof, verbatim _ _⟩
  · obtain rfl := hzero (by omega)
    simp only [if_neg hpos]
    exact .inl (refl_of (Quiet env) w')

theorem execPersist_journals : Journals env (Verbatim "persist" args) (execPersist env args) := by
  unfold execPersist
  split
  · refine .bind (getEntity_moves env _) fun r => ?_
    split
    · simp
    · refine .bind (getTTL_moves env _) fun ttl => ?_
      split
      · simp
      · exact .of_commits (.put _ (.log (.pure rfl (verbatim _ _))))
  · simp

theorem silent_moveTTL (src dest : Bytes) (ttl : Option Int) :
    Silent (moveTTL src dest ttl : Exec σ PUnit) := by
  cases ttl with
  | none => exact .pure _
  | some t => exact .bind (.modifyDB _) fun _ => .bind (.modifyDB _) fun _ => .modifyDB _

theorem silent_removes (keys : List Bytes) : Silent (removes keys : Exec σ Int) :=
  fun w => wp_mono (wp_removes keys w) fun r w' ⟨n, hr, _, _, haof⟩ => ⟨by simp [hr], haof⟩

theorem execRename_journals : Journals env (Verbatim "rename" args) (execRename env args) := by
  unfold execRename
  split
  · refine .bind (getEntity_moves env _) fun r => ?_
    split
    · simp
    · refine .bind (getTTL_moves env _) fun ttl => .of_commits (.put _ (.put _ ?_))
      exact .bind (silent_moveTTL _ _ _) fun _ => .log (.pure rfl (verbatim _ _))
  · simp

theorem execRenameNx_journals :
    Journals env (Verbatim "renamenx" args) (execRenameNx env args) := by
  unfold execRenameNx
  split
  · refine .bind (getEntity_moves env _) fun r => ?_
    split
    · simp
    · refine .bind (getEntity_moves env _) fun r => ?_
      split
      · simp
      · refine .bind (getTTL_moves env _) fun ttl => .of_commits ?_
        refine .bind (silent_removes _) fun _ => .put _ ?_
        exact .bind (silent_moveTTL _ _ _) fun _ => .log (.pure rfl (verbatim _ _))
  · simp

theorem silent_insertFront (key : Bytes) {l : StoredList Slice} (h : 0 ≤ l.size)
    (values : List Slice) : Silent (insertFront env key l values) := by
  induction values generalizing l with
  | nil => exact .pure _
  | cons value values ih =>
      obtain ⟨l', hinsert, hsize⟩ := StoredList.insert_front h env.lib.grow value
      rw [insertFront, hinsert]
      exact .bind (.modifyDB _) fun _ => ih (by omega)

theorem insertFront_journals (name : String) (key : Slice) (l : StoredList Slice)
    (values : List Slice) :
    Journals env (Verbatim name args) (do
      let l ← insertFront env (text key) l values
      addAof (cmdLine3 name args)
      return .int l.size) := by
  by_cases h : 0 ≤ l.size
  · exact .of_commits (.bind (silent_insertFront env _ h values) fun _ =>
      .log (.pure rfl (verbatim _ _)))
  · cases values with
    | nil => exact .of_commits (.bind (.pure l) fun _ => .log (.pure rfl (verbatim _ _)))
    | cons value values =>
        rw [insertFront, StoredList.insert_front_none (by omega)]
        exact .of_moves fun w => refl_of (Quiet env) w

theorem execLPush_journals : Journals env (Verbatim "lpush" args) (execLPush env args) := by
  unfold execLPush
  split
  · refine .getOrInit (fun e => .pure e) (fun l => insertFront_journals env _ _ _ l _) ?_
    exact .bind (silent_insertFront env _ (l := .newQuickList) (Int.le_refl 0) _) fun _ =>
      .log (.pure rfl (verbatim _ _))
  · simp

theorem execLPushX_journals : Journals env (Verbatim "lpushx" args) (execLPushX env args) := by
  unfold execLPushX
  split
  · refine .bind (getAs_moves env _ _) fun r => ?_
    split
    · simp
    · simp
    · exact insertFront_journals env _ _ _ _ _
  · simp

theorem silent_addBack (key : Bytes) (l : StoredList Slice) (values : List Slice) :
    Silent (addBack env key l values) := by
  induction values generalizing l with
  | nil => exact .pure _
  | cons value values ih => exact .bind (.modifyDB _) fun _ => ih _

theorem commits_addBack (name : String) (key : Slice) (l : StoredList Slice)
    (values : List Slice) :
    Commits (Verbatim name args) (do
      let l ← addBack env (text key) l values
      addAof (cmdLine3 name args)
      return .int l.size) :=
  .bind (silent_addBack env _ l values) fun _ => .log (.pure rfl (verbatim _ _))

theorem execRPush_journals : Journals env (Verbatim "rpush" args) (execRPush env args) := by
  unfold execRPush
  split
  · exact .getOrInit (fun e => .pure e) (fun l => .of_commits (commits_addBack env _ _ _ l _))
      (commits_addBack env _ _ _ _ _)
  · simp

theorem execRPushX_journals : Journals env (Verbatim "rpushx" args) (execRPushX env args) := by
  unfold execRPushX
  split
  · refine .bind (getAs_moves env _ _) fun r => ?_
    split
    · simp
    · simp
    · exact .of_commits (commits_addBack env _ _ _ _ _)
  · simp

theorem silent_removeEmpty (key : Bytes) (l : StoredList Slice) :
    Silent (removeEmpty key l : Exec σ PUnit) := by
  unfold removeEmpty
  split
  · exact .modifyDB _
  · exact .pure _

theorem execLPop_journals : Journals env (Verbatim "lpop" args) (execLPop env args) := by
  unfold execLPop
  split
  · refine .bind (getAs_moves env _ _) fun r => ?_
    split
    · simp
    · simp
    · split
      · simp
      · exact .of_commits (.put _ (.bind (silent_removeEmpty _ _) fun _ =>
          .log (.pure (by simp) (verbatim _ _))))
  · simp

theorem execLSet_journals : Journals env (Verbatim "lset" args) (execLSet env args) := by
  unfold execLSet
  split
  · split
    · simp
    · refine .bind (getAs_moves env _ _) fun r => ?_
      split
      · simp
      · simp
      · split
        · simp
        · split
          · simp
          · exact .of_commits (.put _ (.log (.pure rfl (verbatim _ _))))
  · simp

theorem execHSet_journals : Journals env (Verbatim "hset" args) (execHSet env args) := by
  unfold execHSet
  split
  · exact .getOrInit (fun e => .pure e)
      (fun d => .of_commits (.put _ (.log (.pure rfl (verbatim _ _)))))
      (.put _ (.log (.pure rfl (verbatim _ _))))
  · simp

theorem execHSetNX_journals : Journals env (Verbatim "hsetnx" args) (execHSetNX env args) := by
  unfold execHSetNX
  split
  · refine .getOrInit (fun e => .pure e) (fun d => ?_) ?_
    · dsimp only
      split
      · simp
      · exact .of_commits (.put _ (.log (.pure rfl (verbatim _ _))))
    · simp only [Finmap.lookup_empty]
      exact .put _ (.log (.pure rfl (verbatim _ _)))
  · simp

theorem execHMSet_journals : Journals env (Verbatim "hmset" args) (execHMSet env args) := by
  unfold execHMSet
  split
  · split
    · simp
    · exact .getOrInit (fun e => .pure e)
        (fun d => .of_commits (.put _ (.log (.pure rfl (verbatim _ _)))))
        (.put _ (.log (.pure rfl (verbatim _ _))))
  · simp

theorem execHIncrBy_journals : Journals env (Verbatim "hincrby" args) (execHIncrBy env args) := by
  unfold execHIncrBy
  split
  · split
    · simp
    · refine .getOrInit (fun e => .pure e) (fun d => ?_) ?_
      · dsimp only
        split
        · exact .of_commits (.put _ (.log (.pure (by simp) (verbatim _ _))))
        · simp
        · split
          · simp
          · exact .of_commits (.put _ (.log (.pure (by simp) (verbatim _ _))))
      · simp only [Finmap.lookup_empty]
        exact .put _ (.log (.pure (by simp) (verbatim _ _)))
  · simp

theorem execSAdd_journals : Journals env (Verbatim "sadd" args) (execSAdd env args) := by
  unfold execSAdd
  split
  · exact .getOrInit (fun e => .pure e)
      (fun s => .of_commits (.put _ (.log (.pure rfl (verbatim _ _)))))
      (.put _ (.log (.pure rfl (verbatim _ _))))
  · simp

theorem asSortedSet_eq {e : Entity σ} {z : ZSet σ} (h : e.asSortedSet = some z) : e = .zset z := by
  cases e <;> simp_all [Entity.asSortedSet]

theorem asSet_eq {e : Entity σ} {s : Finset Bytes} (h : e.asSet = some s) : e = .set s := by
  cases e <;> simp_all [Entity.asSet]

/-- Nothing is removed from the set, or else a line is handed on. -/
theorem logRemoved_journalsAt {name : String} {key : Bytes} {z : ZSet σ}
    {p : ZSet σ × List (Node σ)} {reply : Reply} (hreply : isErrorReply reply = false)
    (hnone : p.2 = [] → p.1 = z) {w : World σ} (hz : w.db.data.lookup key = some (.zset z)) :
    JournalsAt env (Verbatim name args) (do
      setSortedSet key p.1
      logRemoved name args p.2
      return reply) w := by
  unfold logRemoved
  split
  · rename_i hremoved
    rw [hnone hremoved]
    exact .inl ⟨rfl, DB.keeps_put hz⟩
  · exact Journals.of_commits (.put _ (.log (.pure hreply (verbatim _ _)))) w

theorem ZSet.removeMiddle_nil {z : ZSet σ} {before after : List (Node σ)}
    (h : before ++ after = z.nodes) : (z.removeMiddle before [] after).1 = z := by
  simp [ZSet.removeMiddle, ZSet.deleteAll, h]

theorem ZSet.removeRangeByRank_nil {z : ZSet σ} {start stop : Int}
    (h : (z.removeRangeByRank start stop).2 = []) : (z.removeRangeByRank start stop).1 = z := by
  simp only [ZSet.removeRangeByRank, ZSet.removeMiddle] at h
  simp only [ZSet.removeRangeByRank, h]
  exact removeMiddle_nil (by simp)

theorem execZRemRangeByRank_journals :
    Journals env (Verbatim "zremrangebyrank" args) (execZRemRangeByRank env args) := by
  unfold execZRemRangeByRank
  split
  · split
    · simp
    · split
      · simp
      · refine .getAs (fun e z => asSortedSet_eq) (fun e => .pure e) (.pure _) fun z w hz => ?_
        dsimp only
        split
        · exact Journals.pure _ w
        · exact logRemoved_journalsAt env _ rfl ZSet.removeRangeByRank_nil hz
  · simp

section

variable [LinearOrder σ]

theorem ZSet.removeRangeByScore_nil {z : ZSet σ} {min max : ScoreBorder σ} {limit : Int}
    (h : (z.removeRangeByScore min max limit).2 = []) :
    (z.removeRangeByScore min max limit).1 = z := by
  simp only [ZSet.removeRangeByScore, ZSet.removeMiddle] at h
  simp only [ZSet.removeRangeByScore, h]
  exact removeMiddle_nil (by simp)

theorem ZSet.remove_false {z : ZSet σ} {member : Bytes} (h : (z.remove member).2 = false) :
    (z.remove member).1 = z := by
  rw [ZSet.remove] at h ⊢
  split at h
  · rfl
  · simp at h

theorem removeElements_nonneg (z : ZSet σ) (members : List Bytes) :
    0 ≤ (removeElements z members).2 := by
  induction members generalizing z with
  | nil => exact Int.le_refl 0
  | cons member members ih =>
      have hrest := ih (z.remove member).1
      simp only [removeElements]
      split <;> omega

theorem removeElements_zero {z : ZSet σ} {members : List Bytes}
    (h : (removeElements z members).2 = 0) : (removeElements z members).1 = z := by
  induction members generalizing z with
  | nil => rfl
  | cons member members ih =>
      have hrest := removeElements_nonneg (z.remove member).1 members
      simp only [removeElements] at h ⊢
      cases hm : (z.remove member).2 with
      | true =>
          simp only [hm, if_true] at h
          omega
      | false =>
          simp only [hm, Bool.false_eq_true, if_false, Int.zero_add] at h
          rw [ih h, ZSet.remove_false hm]

theorem execZRem_journals : Journals env (Verbatim "zrem" args) (execZRem env args) := by
  unfold execZRem
  split
  · refine .getAs (fun e z => asSortedSet_eq) (fun e => .pure e) (.pure _) fun z w hz => ?_
    dsimp only
    split
    · exact Journals.of_commits (.put _ (.log (.pure rfl (verbatim _ _)))) w
    · have hnonneg := removeElements_nonneg z (List.map text ‹List Slice›)
      rw [removeElements_zero (by omega)]
      exact .inl ⟨rfl, DB.keeps_put hz⟩
  · simp

variable [Inhabited σ]

theorem ZSet.popMin_nil {z : ZSet σ} {count : Int} (h : (z.popMin count).2 = []) :
    (z.popMin count).1 = z := by
  rw [ZSet.popMin] at h ⊢
  split at h
  · rfl
  · exact removeRangeByScore_nil h

theorem execZPopMin_journals : Journals env (Verbatim "zpopmin" args) (execZPopMin env args) := by
  unfold execZPopMin
  split
  · split
    · simp
    · refine .getAs (fun e z => asSortedSet_eq) (fun e => .pure e) (.pure _) fun z w hz => ?_
      exact logRemoved_journalsAt env _ rfl ZSet.popMin_nil hz
  · simp

theorem execZRemRangeByScore_journals :
    Journals env (Verbatim "zremrangebyscore" args) (execZRemRangeByScore env args) := by
  unfold execZRemRangeByScore
  split
  · refine .bind (borders_moves env _ _) fun r => ?_
    split
    · simp
    · refine .getAs (fun e z => asSortedSet_eq) (fun e => .pure e) (.pure _) fun z w hz => ?_
      exact logRemoved_journalsAt env _ rfl ZSet.removeRangeByScore_nil hz
  · simp

end

end

end Traitor.Database
