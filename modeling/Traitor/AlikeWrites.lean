import Traitor.AlikeReads

namespace Traitor.Database

open Lib.Effects Lib.Strconv Protocol

variable {σ : Type} {env : Env σ} {K : Set Bytes} {key : Bytes}

theorem getExOptions_alike (h : key ∈ K) (ttl : Int) (options : List Slice) :
    Alike env K (getExOptions key ttl options) := by
  fun_induction getExOptions key ttl options with
  | case1 | case2 | case3 | case5 | case6 | case8 => exact .pure _
  | case4 _ _ _ _ _ _ _ _ ih => exact ih
  | case7 _ _ _ _ _ _ _ _ _ ih => exact ih
  | case9 _ _ _ _ _ _ _ _ ih => exact (persist_alike h).bind fun _ => ih
  | case10 _ _ _ _ _ _ _ ih => exact ih

/-- A condition on what is under the key only compares keys that were looked at. -/
theorem putByPolicy_written {policy : Policy} (h : policy ≠ .upsert → key ∈ K) (entity : Entity σ) :
    Relates (Similar env K) (fun r => if 0 < r.getD 0 then Written env K key else Similar env K)
      (putByPolicy policy key entity) := by
  have hput : Relates (Similar env K)
      (fun r => if 0 < Option.getD r (0 : Int) then Written env K key else Similar env K) (do
        putEntity key entity
        return 1) := Relates.bind (put_written key entity) (fun _ => .pure fun _ _ h => h) fun _ _ h => h
  cases policy with
  | upsert => exact hput
  | insert =>
      refine Relates.bind (has_alike (h (by decide))) (fun b => ?_) fun _ _ h => h
      split
      · exact .pure fun _ _ h => h
      · exact hput
  | update =>
      refine Relates.bind (has_alike (h (by decide))) (fun b => ?_) fun _ _ h => h
      split
      · exact hput
      · exact .pure fun _ _ h => h

theorem putIfAbsent_alike (h : key ∈ K) (entity : Entity σ) :
    Alike env K (putIfAbsent key entity) := by
  apply (has_alike h).bind
  intro b
  split
  · exact .pure _
  · exact (put_alike h _).bind fun _ => .pure _

theorem putPairs_alike {l : List (Slice × Slice)} (h : ∀ p ∈ l, text p.1 ∈ K) :
    Alike env K (putPairs l) := by
  induction l with
  | nil => exact .pure _
  | cons p l ih =>
      exact (put_alike (h p List.mem_cons_self) _).bind fun _ =>
        ih fun q hq => h q (List.mem_cons_of_mem p hq)

/-- All keys are looked at to find none of them. -/
theorem anyExists_looks (keys : List Bytes) : Relates (Similar env K)
    (fun r => Similar env (if r = some false then K ∪ {key | key ∈ keys} else K))
    (anyExists env keys) := by
  induction keys generalizing K with
  | nil => exact .pure fun _ _ h => by simpa using h
  | cons key keys ih =>
      refine Relates.bind (getEntity_looks key) (fun r => ?_) fun _ _ h => by simpa using h.of_insert
      split
      · exact .pure fun _ _ h => by simpa using h.of_insert
      · refine ih.mono (fun _ _ h => h) fun r _ _ h => h.anti ?_
        split
        · intro k hk
          simpa [or_assoc, or_comm, or_left_comm] using hk
        · exact Set.subset_insert key K

theorem removes_alike {keys : List Bytes} (h : ∀ key ∈ keys, key ∈ K) :
    Alike env K (removes keys) := by
  induction keys with
  | nil => exact .pure _
  | cons key keys ih =>
      have hrest := ih fun k hk => h k (List.mem_cons_of_mem key hk)
      apply (has_alike (h key List.mem_cons_self)).bind
      intro b
      split
      · exact (remove_alike _).bind fun _ => hrest.bind fun _ => .pure _
      · exact hrest

theorem moveTTL_alike {src dest : Bytes} (hsrc : src ∈ K) (hdest : dest ∈ K) (ttl : Option Int) :
    Alike env K (moveTTL src dest ttl) := by
  cases ttl with
  | none => exact .pure _
  | some t =>
      exact (persist_alike hsrc).bind fun _ => (persist_alike hdest).bind fun _ =>
        expire_alike hdest t

theorem insertFront_alike (h : key ∈ K) (l : StoredList Slice) (values : List Slice) :
    Alike env K (insertFront env key l values) := by
  induction values generalizing l with
  | nil => exact .pure _
  | cons value values ih =>
      rw [insertFront]
      split
      · exact .panics
      · exact (put_alike h _).bind fun _ => ih _

theorem addBack_alike (h : key ∈ K) (l : StoredList Slice) (values : List Slice) :
    Alike env K (addBack env key l values) := by
  induction values generalizing l with
  | nil => exact .pure _
  | cons value values ih => exact (put_alike h _).bind fun _ => ih _

theorem removeEmpty_alike (l : StoredList Slice) :
    Alike env K (removeEmpty key l) := by
  rw [removeEmpty]
  split
  · exact remove_alike _
  · exact .pure _

theorem popLast_alike (h : key ∈ K) (l : StoredList Slice) :
    Alike env K (popLast key l) := by
  rw [popLast]
  apply (put_alike h _).bind
  intro _
  split <;> simp

theorem currentList_alike (h : key ∈ K) (l : StoredList Slice) : Alike env K (currentList key l) :=
  fun _ _ hw => ⟨congrArg (fun s : Slot σ => some ((s.data.bind Entity.asList).getD l)) (hw.2 key h), hw⟩

section

variable (args : List Slice)

/-- The keys that a command reaches without looking at them, and so also where they are
expired. -/
def direct : CommandName → List Slice → List Bytes
  | .set, key :: _ :: options =>
      match setOptions .upsert unlimitedTTL options with
      | .ok (.insert, _) | .ok (.update, _) => [text key]
      | _ => []
  | .setNx, key :: _ :: _ => [text key]
  | .mset, args => if args.length % 2 = 0 then (pairs args).map fun p => text p.1 else []
  | .del, args => args.map text
  | .rename, [_, dest] => [text dest]
  | .sInterStore, dest :: keys | .sDiffStore, dest :: keys =>
      if text dest ∈ keys.map text then [] else [text dest]
  | _, _ => []

theorem execSet_alike (h : ∀ key ∈ direct .set args, key ∈ K) : Alike env K (execSet env args) := by
  unfold execSet
  split
  · rename_i key value options
    cases ho : setOptions .upsert unlimitedTTL options with
    | error e => exact .pure _
    | ok p =>
        obtain ⟨policy, ttl⟩ := p
        have hpolicy : policy ≠ .upsert → text key ∈ K := by
          intro hne
          apply h _
          cases policy <;> simp_all [direct]
        refine Relates.bind (putByPolicy_written hpolicy _) (fun n => ?_) fun _ _ h => h
        dsimp only [Option.getD_some]
        by_cases hn : 0 < n
        · rw [if_pos hn, if_pos hn]
          split
          · refine Relates.bind (expire_written _ _) (fun _ => ?_) fun _ _ h => h.of_insert
            exact ((addAof_alike _).bind fun _ => (addAof_alike _).bind fun _ => .pure _).looked
          · refine Relates.bind (persist_written _) (fun _ => ?_) fun _ _ h => h.of_insert
            exact ((addAof_alike _).bind fun _ => .pure _).looked
        · rw [if_neg hn, if_neg hn]
          exact Alike.pure _
  · exact .panics

theorem execSetNX_alike (h : ∀ key ∈ direct .setNx args, key ∈ K) :
    Alike env K (execSetNX args) := by
  unfold execSetNX
  split
  · rename_i key value rest
    have hkey : text key ∈ K := h _ (by simp [direct])
    refine Alike.bind (putIfAbsent_alike hkey _) fun _ => (addAof_alike _).bind fun _ => .pure _
  · exact .panics

theorem setWithTTL_alike (unit : Int) :
    Alike env K (setWithTTL env unit args) := by
  unfold setWithTTL
  split
  · split
    · exact .pure _
    · split
      · exact .pure _
      · refine Relates.bind (put_written _ _) (fun _ => ?_) fun _ _ h => h
        refine Relates.bind (expire_written _ _) (fun _ => ?_) fun _ _ h => h.of_insert
        exact ((addAof_alike _).bind fun _ => (addAof_alike _).bind fun _ => .pure _).looked
  · exact .panics

theorem execMSet_alike (h : ∀ key ∈ direct .mset args, key ∈ K) : Alike env K (execMSet args) := by
  rw [execMSet]
  split
  · exact .pure _
  · rename_i heven
    rw [not_not] at heven
    simp only [direct, if_pos heven] at h
    exact (putPairs_alike fun p hp => h _ (List.mem_map_of_mem hp)).bind fun _ =>
      (addAof_alike _).bind fun _ => .pure _

theorem execMSetNX_alike : Alike env K (execMSetNX env args) := by
  rw [execMSetNX]
  split
  · exact .pure _
  · refine (anyExists_looks _).bind (fun b => ?_) fun _ _ h => by simpa using h
    cases b with
    | true => exact .pure fun _ _ h => by simpa using h
    | false =>
        have hlooked (p : Slice × Slice) (hp : p ∈ pairs args) :
            text p.1 ∈ K ∪ {key | key ∈ (pairs args).map fun p => text p.1} :=
          .inr (List.mem_map.mpr ⟨p, hp, rfl⟩)
        exact Relates.mono ((putPairs_alike hlooked).bind fun _ => (addAof_alike _).bind fun _ => .pure _)
          (fun _ _ h => h) fun _ _ _ h => h.anti Set.subset_union_left

theorem execGetEX_alike : Alike env K (execGetEX env args) := by
  unfold execGetEX
  split
  · apply (getAsString_looks _).bind
    intro r
    split
    · exact .pure _
    · exact .pure _
    · apply (getExOptions_alike mem_looked _ _).bind
      intro r
      split
      · exact .pure _
      · split
        · exact .pure _
        · split
          · exact (expire_alike mem_looked _).bind fun _ => (addAof_alike _).bind fun _ => .pure _
          · exact (persist_alike mem_looked).bind fun _ => (addAof_alike _).bind fun _ => .pure _
  · exact .panics

theorem execGetSet_alike : Alike env K (execGetSet env args) := by
  unfold execGetSet
  split
  · apply (getAsString_looks _).bind
    intro r
    split
    · exact .pure _
    · refine (put_alike mem_looked _).bind fun _ => (persist_alike mem_looked).bind fun _ =>
        (addAof_alike _).bind fun _ => ?_
      split <;> exact .pure _
  · exact .panics

theorem execGetDel_alike : Alike env K (execGetDel env args) := by
  unfold execGetDel
  split
  · apply (getAsString_looks _).bind
    intro r
    split
    · exact .pure _
    · exact .pure _
    · exact (remove_alike _).bind fun _ => (addAof_alike _).bind fun _ => .pure _
  · exact .panics

theorem addInteger_alike (name : String) (delta : Int) (initial : Slice)
    (first : Int) :
    Alike env K (addInteger env name args key delta initial first) := by
  apply (getAsString_looks key).bind
  intro r
  split
  · exact .pure _
  · exact (put_alike mem_looked _).bind fun _ => (addAof_alike _).bind fun _ => .pure _
  · split
    · exact .pure _
    · exact (put_alike mem_looked _).bind fun _ => (addAof_alike _).bind fun _ => .pure _

theorem execIncr_alike : Alike env K (execIncr env args) := by
  unfold execIncr
  split
  · exact addInteger_alike _ _ _ _ _
  · exact .panics

theorem execDecr_alike : Alike env K (execDecr env args) := by
  unfold execDecr
  split
  · exact addInteger_alike _ _ _ _ _
  · exact .panics

theorem execIncrBy_alike : Alike env K (execIncrBy env args) := by
  unfold execIncrBy
  split
  · split
    · exact .pure _
    · exact addInteger_alike _ _ _ _ _
  · exact .panics

theorem execDecrBy_alike : Alike env K (execDecrBy env args) := by
  unfold execDecrBy
  split
  · split
    · exact .pure _
    · exact addInteger_alike _ _ _ _ _
  · exact .panics

theorem execIncrByFloat_alike :
    Alike env K (execIncrByFloat env args) := by
  unfold execIncrByFloat
  split
  · split
    · exact .pure _
    · apply (getAsString_looks _).bind
      intro r
      split
      · exact .pure _
      · exact put_log_alike mem_looked _ _ _
      · split
        · exact .pure _
        · exact put_log_alike mem_looked _ _ _
  · exact .panics

theorem execAppend_alike : Alike env K (execAppend env args) := by
  unfold execAppend
  split
  · apply (getAsString_looks _).bind
    intro r
    split
    · exact .pure _
    · exact put_log_alike mem_looked _ _ _
  · exact .panics

theorem execSetRange_alike : Alike env K (execSetRange env args) := by
  unfold execSetRange
  split
  · split
    · exact .pure _
    · apply (getAsString_looks _).bind
      intro r
      split
      · exact .pure _
      · dsimp only
        split
        · exact .panics
        · exact put_log_alike mem_looked _ _ _
  · exact .panics

theorem execSetBit_alike : Alike env K (execSetBit env args) := by
  unfold execSetBit
  split
  · split
    · exact .pure _
    · split
      · exact .pure _
      · apply (getAsString_looks _).bind
        intro r
        split
        · exact .pure _
        · split
          · exact (put_alike mem_looked _).bind fun _ => .pure _
          · exact .panics
  · exact .panics

theorem execDel_alike (h : ∀ key ∈ direct .del args, key ∈ K) :
    Alike env K (execDel args) := by
  apply (removes_alike h).bind
  intro n
  split
  · exact (addAof_alike _).bind fun _ => .pure _
  · exact .pure _

theorem expireCommand_alike (instant : Int → Int) :
    Alike env K (expireCommand env instant args) := by
  unfold expireCommand
  split
  · split
    · exact .pure _
    · apply (getEntity_looks _).bind
      intro r
      split
      · exact .pure _
      · exact (expire_alike mem_looked _).bind fun _ => (addAof_alike _).bind fun _ => .pure _
  · exact .panics

theorem execPersist_alike : Alike env K (execPersist env args) := by
  unfold execPersist
  split
  · apply (getEntity_looks _).bind
    intro r
    split
    · exact .pure _
    · apply (getTTL_alike mem_looked).bind
      intro ttl
      split
      · exact .pure _
      · exact (persist_alike mem_looked).bind fun _ => (addAof_alike _).bind fun _ => .pure _
  · exact .panics

theorem execRename_alike (h : ∀ key ∈ direct .rename args, key ∈ K) :
    Alike env K (execRename env args) := by
  unfold execRename
  split
  · rename_i src dest
    have hdest : text dest ∈ insert (text src) K := .inr (h _ (by simp [direct]))
    apply (getEntity_looks _).bind
    intro r
    split
    · exact .pure _
    · refine (getTTL_alike mem_looked).bind fun ttl => (put_alike hdest _).bind fun _ =>
        (remove_alike _).bind fun _ => ?_
      exact (moveTTL_alike mem_looked hdest ttl).bind fun _ => (addAof_alike _).bind fun _ => .pure _
  · exact .pure _

theorem execRenameNx_alike :
    Alike env K (execRenameNx env args) := by
  unfold execRenameNx
  split
  · apply (getEntity_looks _).bind
    intro r
    split
    · exact .pure _
    · apply (getEntity_looks _).bind
      intro r
      split
      · exact .pure _
      · apply (getTTL_alike mem_looked).bind
        intro ttl
        apply (removes_alike (by simp)).bind
        intro _
        apply (put_alike (by simp) _).bind
        intro _
        exact (moveTTL_alike (by simp) (by simp) ttl).bind
          fun _ => (addAof_alike _).bind fun _ => .pure _
  · exact .panics

theorem execLPush_alike : Alike env K (execLPush env args) := by
  unfold execLPush
  split
  · apply (getOrInit_looks _ _ _ _).bind
    intro r
    split
    · exact .pure _
    · exact (insertFront_alike mem_looked _ _).bind fun _ => (addAof_alike _).bind fun _ => .pure _
  · exact .panics

theorem execLPushX_alike : Alike env K (execLPushX env args) := by
  unfold execLPushX
  split
  · apply (getAs_looks _ _).bind
    intro r
    split
    · exact .pure _
    · exact .pure _
    · exact (insertFront_alike mem_looked _ _).bind fun _ => (addAof_alike _).bind fun _ => .pure _
  · exact .panics

theorem execRPush_alike : Alike env K (execRPush env args) := by
  unfold execRPush
  split
  · apply (getOrInit_looks _ _ _ _).bind
    intro r
    split
    · exact .pure _
    · exact (addBack_alike mem_looked _ _).bind fun _ => (addAof_alike _).bind fun _ => .pure _
  · exact .panics

theorem execRPushX_alike : Alike env K (execRPushX env args) := by
  unfold execRPushX
  split
  · apply (getAs_looks _ _).bind
    intro r
    split
    · exact .pure _
    · exact .pure _
    · exact (addBack_alike mem_looked _ _).bind fun _ => (addAof_alike _).bind fun _ => .pure _
  · exact .pure _

theorem execLPop_alike : Alike env K (execLPop env args) := by
  unfold execLPop
  split
  · apply (getAs_looks _ _).bind
    intro r
    split
    · exact .pure _
    · exact .pure _
    · split
      · exact .panics
      · exact (put_alike mem_looked _).bind fun _ => (removeEmpty_alike _).bind fun _ =>
          (addAof_alike _).bind fun _ => .pure _
  · exact .panics

theorem execRPop_alike : Alike env K (execRPop env args) := by
  unfold execRPop
  split
  · apply (getAs_looks _ _).bind
    intro r
    split
    · exact .pure _
    · exact .pure _
    · exact (popLast_alike mem_looked _).bind fun _ => (removeEmpty_alike _).bind fun _ =>
        (addAof_alike _).bind fun _ => .pure _
  · exact .panics

theorem execRPopLPush_alike :
    Alike env K (execRPopLPush env args) := by
  unfold execRPopLPush
  split
  · apply (getAs_looks _ _).bind
    intro r
    split
    · exact .pure _
    · exact .pure _
    · apply (getOrInit_looks _ _ _ _).bind
      intro r
      split
      · exact .pure _
      · apply (popLast_alike (by simp) _).bind
        intro p
        apply (currentList_alike (by simp) _).bind
        intro l
        split
        · exact .panics
        · apply (put_alike (by simp) _).bind
          intro _
          apply (currentList_alike (by simp) _).bind
          intro l
          exact (removeEmpty_alike _).bind fun _ =>
            (addAof_alike _).bind fun _ => .pure _
  · exact .panics

theorem execLRem_alike : Alike env K (execLRem env args) := by
  unfold execLRem
  split
  · split
    · exact .pure _
    · apply (getAs_looks _ _).bind
      intro r
      split
      · exact .pure _
      · exact .pure _
      · apply (put_alike mem_looked _).bind
        intro _
        split
        · exact .panics
        · apply (removeEmpty_alike _).bind
          intro _
          split
          · exact (addAof_alike _).bind fun _ => .pure _
          · exact .pure _
  · exact .panics

theorem execLSet_alike : Alike env K (execLSet env args) := by
  unfold execLSet
  split
  · split
    · exact .pure _
    · apply (getAs_looks _ _).bind
      intro r
      split
      · exact .pure _
      · exact .pure _
      · split
        · exact .pure _
        · split
          · exact .panics
          · exact (put_alike mem_looked _).bind fun _ => (addAof_alike _).bind fun _ => .pure _
  · exact .panics

theorem execHSet_alike : Alike env K (execHSet env args) := by
  unfold execHSet
  split
  · apply (getOrInit_looks _ _ _ _).bind
    intro r
    split
    · exact .pure _
    · exact put_log_alike mem_looked _ _ _
  · exact .panics

theorem execHSetNX_alike : Alike env K (execHSetNX env args) := by
  unfold execHSetNX
  split
  · apply (getOrInit_looks _ _ _ _).bind
    intro r
    split
    · exact .pure _
    · split
      · exact .pure _
      · exact put_log_alike mem_looked _ _ _
  · exact .panics

theorem execHDel_alike : Alike env K (execHDel env args) := by
  unfold execHDel
  split
  · apply (getAs_looks _ _).bind
    intro r
    split
    · exact .pure _
    · exact .pure _
    · apply (put_alike mem_looked _).bind
      intro _
      dsimp only
      split
      · exact (remove_alike _).bind fun _ => logIf_alike _ _ _
      · exact logIf_alike _ _ _
  · exact .panics

theorem execHMSet_alike : Alike env K (execHMSet env args) := by
  unfold execHMSet
  split
  · split
    · exact .pure _
    · apply (getOrInit_looks _ _ _ _).bind
      intro r
      split
      · exact .pure _
      · exact put_log_alike mem_looked _ _ _
  · exact .pure _

theorem execHIncrBy_alike : Alike env K (execHIncrBy env args) := by
  unfold execHIncrBy
  split
  · split
    · exact .pure _
    · apply (getOrInit_looks _ _ _ _).bind
      intro r
      split
      · exact .pure _
      · split
        · exact put_log_alike mem_looked _ _ _
        · exact .panics
        · split
          · exact .pure _
          · exact put_log_alike mem_looked _ _ _
  · exact .panics

theorem execHIncrByFloat_alike :
    Alike env K (execHIncrByFloat env args) := by
  unfold execHIncrByFloat
  split
  · split
    · exact .pure _
    · apply (getOrInit_looks _ _ _ _).bind
      intro r
      split
      · exact .pure _
      · split
        · exact (put_alike mem_looked _).bind fun _ => .pure _
        · exact .panics
        · split
          · exact .pure _
          · exact put_log_alike mem_looked _ _ _
  · exact .panics

theorem execSAdd_alike : Alike env K (execSAdd env args) := by
  unfold execSAdd
  split
  · apply (getOrInit_looks _ _ _ _).bind
    intro r
    split
    · exact .pure _
    · exact put_log_alike mem_looked _ _ _
  · exact .panics

theorem execSRem_alike : Alike env K (execSRem env args) := by
  unfold execSRem
  split
  · apply (getAs_looks _ _).bind
    intro r
    split
    · exact .pure _
    · exact .pure _
    · apply (put_alike mem_looked _).bind
      intro _
      dsimp only
      split
      · exact (remove_alike _).bind fun _ => logIf_alike _ _ _
      · exact logIf_alike _ _ _
  · exact .panics

theorem popMembers_alike (key : Slice) (rest : List Slice) :
    Alike env K (popMembers env key rest) := by
  apply (getAs_looks _ _).bind
  intro r
  split
  · exact .pure _
  · exact .pure _
  · split
    · exact .pure _
    · dsimp only
      split
      · exact .panics
      · exact (put_alike mem_looked _).bind fun _ => logIf_alike _ _ _

theorem execSPop_alike : Alike env K (execSPop env args) := by
  unfold execSPop
  split
  · exact popMembers_alike _ _
  · exact popMembers_alike _ _
  · exact .pure _

theorem storeSet_alike (name : String) (dest : Slice) (keys : List Slice) (s : Finset Bytes)
    (h : text dest ∈ K) : Alike env K (storeSet env name dest keys s) :=
  (put_alike h _).bind fun _ => (addAof_alike _).bind fun _ => .pure _

theorem dest_looked {c : CommandName} {dest : Slice} {keys : List Slice} {s : Option (Finset Bytes)}
    (hc : c = .sInterStore ∨ c = .sDiffStore) (h : ∀ key ∈ direct c (dest :: keys), key ∈ K) :
    text dest ∈ lookedAt K (keys.map text) (some (.result s)) := by
  by_cases hmem : text dest ∈ keys.map text
  · exact .inr hmem
  · refine .inl (h _ ?_)
    rcases hc with rfl | rfl <;> simp only [direct, if_neg hmem, List.mem_singleton]

theorem execSInterStore_alike (h : ∀ key ∈ direct .sInterStore args, key ∈ K) :
    Alike env K (execSInterStore env args) := by
  unfold execSInterStore
  split
  · apply Relates.looked (interLoop_looks _ _)
    intro r
    split
    · exact .pure _
    · exact (remove_alike _).bind fun _ => .pure _
    · exact .panics
    · exact storeSet_alike _ _ _ _ (dest_looked (.inl rfl) h)
  · exact .panics

theorem execSUnionStore_alike : Alike env K (execSUnionStore env args) := by
  unfold execSUnionStore
  split
  · apply Relates.looked (unionLoop_looks _ _)
    intro r
    split
    · exact .pure _
    · exact (remove_alike _).bind fun _ => .pure _
    · exact (remove_alike _).bind fun _ => .pure _
    · exact (remove_looks _).bind fun _ => storeSet_alike _ _ _ _ mem_looked
  · exact .panics

theorem execSDiffStore_alike (h : ∀ key ∈ direct .sDiffStore args, key ∈ K) :
    Alike env K (execSDiffStore env args) := by
  unfold execSDiffStore
  split
  · apply Relates.looked (diffLoop_looks _ _ _)
    intro r
    split
    · exact .pure _
    · exact (remove_alike _).bind fun _ => .pure _
    · exact (remove_alike _).bind fun _ => .pure _
    · exact storeSet_alike _ _ _ _ (dest_looked (.inr rfl) h)
  · exact .panics

theorem logRemoved_alike (name : String) (removed : List (Node σ)) :
    Alike env K (logRemoved name args removed) := by
  rw [logRemoved]
  split
  · exact .pure _
  · exact addAof_alike _

theorem execZRemRangeByRank_alike :
    Alike env K (execZRemRangeByRank env args) := by
  unfold execZRemRangeByRank
  split
  · split
    · exact .pure _
    · split
      · exact .pure _
      · apply (getAs_looks _ _).bind
        intro r
        split
        · exact .pure _
        · exact .pure _
        · split
          · exact .pure _
          · exact (put_alike mem_looked _).bind fun _ => (logRemoved_alike _ _ _).bind
              fun _ => .pure _
  · exact .panics

section

variable [LinearOrder σ]

theorem execZRem_alike : Alike env K (execZRem env args) := by
  unfold execZRem
  split
  · apply (getAs_looks _ _).bind
    intro r
    split
    · exact .pure _
    · exact .pure _
    · exact (put_alike mem_looked _).bind fun _ => logIf_alike _ _ _
  · exact .panics

theorem addElement_alike (h : key ∈ K) (z : ZSet σ) (member : Bytes) (score : σ) (height : Nat) :
    Alike env K (addElement key z member score height) := by
  apply (put_alike h _).bind
  intro _
  split <;> simp

theorem addElements_alike (h : key ∈ K) (z : ZSet σ) (i : Nat) (elements : List (Bytes × σ)) :
    Alike env K (addElements env key z i elements) := by
  induction elements generalizing z i with
  | nil => exact .pure _
  | cons e elements ih =>
      exact (addElement_alike h _ _ _ _).bind fun p => (ih _ _).bind fun _ => .pure _

theorem execZAdd_alike : Alike env K (execZAdd env args) := by
  unfold execZAdd
  split
  · split
    · exact .pure _
    · split
      · exact .pure _
      · apply (getOrInit_looks _ _ _ _).bind
        intro r
        split
        · exact .pure _
        · exact (addElements_alike mem_looked _ _ _).bind fun _ => .pure _
  · exact .pure _

theorem execZIncrBy_alike : Alike env K (execZIncrBy env args) := by
  unfold execZIncrBy
  split
  · split
    · exact .pure _
    · apply (getOrInit_looks _ _ _ _).bind
      intro r
      split
      · exact .pure _
      · split
        · exact .panics
        · exact (addElement_alike mem_looked _ _ _ _).bind fun _ => (addAof_alike _).bind
            fun _ => .pure _
  · exact .panics

variable [Inhabited σ]

theorem execZPopMin_alike : Alike env K (execZPopMin env args) := by
  unfold execZPopMin
  split
  · split
    · exact .pure _
    · apply (getAs_looks _ _).bind
      intro r
      split
      · exact .pure _
      · exact .pure _
      · exact (put_alike mem_looked _).bind fun _ => (logRemoved_alike _ _ _).bind fun _ => .pure _
  · exact .panics

theorem execZRemRangeByScore_alike :
    Alike env K (execZRemRangeByScore env args) := by
  unfold execZRemRangeByScore
  split
  · apply (borders_alike _ _).bind
    intro r
    split
    · exact .pure _
    · apply (getAs_looks _ _).bind
      intro r
      split
      · exact .pure _
      · exact .pure _
      · exact (put_alike mem_looked _).bind fun _ => (logRemoved_alike _ _ _).bind fun _ => .pure _
  · exact .pure _

/-- A command does the same on databases that differ only in expired keys, as long as it
reaches none of these but by looking at it. -/
theorem command_alike (c : CommandName) (args : List Slice) (hdirect : ∀ key ∈ direct c args, key ∈ K)
    (hkeys : c = .keys → ∀ key, key ∈ K) : Alike env K ((command env c).executor args) :=
  match c with
  | .set => execSet_alike args hdirect
  | .setNx => execSetNX_alike args hdirect
  | .setEX => setWithTTL_alike args _
  | .pSetEX => setWithTTL_alike args _
  | .mset => execMSet_alike args hdirect
  | .mget => execMGet_alike args
  | .mSetNX => execMSetNX_alike args
  | .get => execGet_alike args
  | .getEX => execGetEX_alike args
  | .getSet => execGetSet_alike args
  | .getDel => execGetDel_alike args
  | .incr => execIncr_alike args
  | .incrBy => execIncrBy_alike args
  | .incrByFloat => execIncrByFloat_alike args
  | .decr => execDecr_alike args
  | .decrBy => execDecrBy_alike args
  | .strLen => execStrLen_alike args
  | .append => execAppend_alike args
  | .setRange => execSetRange_alike args
  | .getRange => execGetRange_alike args
  | .setBit => execSetBit_alike args
  | .getBit => execGetBit_alike args
  | .bitCount => execBitCount_alike args
  | .bitPos => execBitPos_alike args
  | .del => execDel_alike args hdirect
  | .expire => expireCommand_alike args _
  | .expireAt => expireCommand_alike args _
  | .pExpire => expireCommand_alike args _
  | .pExpireAt => expireCommand_alike args _
  | .ttl => ttlCommand_alike args _
  | .pttl => ttlCommand_alike args _
  | .persist => execPersist_alike args
  | .exists_ => execExists_alike args
  | .type => execType_alike args
  | .rename => execRename_alike args hdirect
  | .renameNx => execRenameNx_alike args
  | .keys => execKeys_alike args (hkeys rfl)
  | .lPush => execLPush_alike args
  | .lPushX => execLPushX_alike args
  | .rPush => execRPush_alike args
  | .rPushX => execRPushX_alike args
  | .lPop => execLPop_alike args
  | .rPop => execRPop_alike args
  | .rPopLPush => execRPopLPush_alike args
  | .lRem => execLRem_alike args
  | .lLen => execLLen_alike args
  | .lIndex => execLIndex_alike args
  | .lSet => execLSet_alike args
  | .lRange => execLRange_alike args
  | .hSet => execHSet_alike args
  | .hSetNX => execHSetNX_alike args
  | .hExists => execHExists_alike args
  | .hDel => execHDel_alike args
  | .hLen => execHLen_alike args
  | .hStrlen => execHStrLen_alike args
  | .hMSet => execHMSet_alike args
  | .hMGet => execHMGet_alike args
  | .hGet => execHGet_alike args
  | .hKeys => execHKeys_alike args
  | .hVals => execHVals_alike args
  | .hGetAll => execHGetAll_alike args
  | .hIncrBy => execHIncrBy_alike args
  | .hIncrByFloat => execHIncrByFloat_alike args
  | .hRandField => execHRandField_alike args
  | .sAdd => execSAdd_alike args
  | .sIsMember => execSIsMember_alike args
  | .sRem => execSRem_alike args
  | .sPop => execSPop_alike args
  | .sCard => execSCard_alike args
  | .sMembers => execSMembers_alike args
  | .sInter => execSInter_alike args
  | .sInterStore => execSInterStore_alike args hdirect
  | .sUnion => execSUnion_alike args
  | .sUnionStore => execSUnionStore_alike args
  | .sDiff => execSDiff_alike args
  | .sDiffStore => execSDiffStore_alike args hdirect
  | .sRandMember => execSRandMember_alike args
  | .zAdd => execZAdd_alike args
  | .zScore => execZScore_alike args
  | .zIncrBy => execZIncrBy_alike args
  | .zRank => rankCommand_alike args _
  | .zCount => execZCount_alike args
  | .zRevRank => rankCommand_alike args _
  | .zCard => execZCard_alike args
  | .zRange => execZRange_alike args
  | .zRangeByScore => execZRangeByScore_alike args
  | .zRevRange => execZRevRange_alike args
  | .zRevRangeByScore => execZRevRangeByScore_alike args
  | .zPopMin => execZPopMin_alike args
  | .zRem => execZRem_alike args
  | .zRemRangeByScore => execZRemRangeByScore_alike args
  | .zRemRangeByRank => execZRemRangeByRank_alike args
  | .ping => ping_alike args

end

end

end Traitor.Database
