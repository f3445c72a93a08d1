import Traitor.Locality
import Traitor.Transaction
import Traitor.WriteSets

namespace Traitor.Database

open Lib.Effects Lib.Strconv Protocol

variable {σ : Type} {env : Env σ} {W R : Set Bytes} {key : Bytes}

/-- The commands that undo lines are made of, besides `DEL` and `SET`. -/
def restorers : List (String × CommandName) :=
  [("PERSIST", .persist), ("HMSET", .hMSet), ("HSET", .hSet), ("HDEL", .hDel), ("ZADD", .zAdd),
    ("SADD", .sAdd), ("SREM", .sRem), ("LPUSH", .lPush), ("LPOP", .lPop), ("LSET", .lSet),
    ("RPUSH", .rPush), ("RPOP", .rPop)]

inductive UndoLine (key : Bytes) : CmdLine → Prop
  | del : UndoLine key (cmdLine "DEL" [key])
  | set (s : Slice) : UndoLine key (cmdLine3 "SET" [some key, s])
  | item (p : String × CommandName) (first : Slice) (args : List Slice) (h : p ∈ restorers)
      (hfirst : text first = key) : UndoLine key (cmdLine3 p.1 (first :: args))

def UndoLines (W : Set Bytes) (lines : List CmdLine) : Prop := ∀ line ∈ lines, ∃ key ∈ W, UndoLine key line

section

variable {lines lines' : List CmdLine} {line : CmdLine}

theorem undoLines_nil : UndoLines W [] := by simp [UndoLines]

theorem UndoLines.cons (h : key ∈ W) (hline : UndoLine key line) (hlines : UndoLines W lines) :
    UndoLines W (line :: lines) := List.forall_mem_cons.mpr ⟨⟨key, h, hline⟩, hlines⟩

theorem UndoLines.single (h : key ∈ W) (hline : UndoLine key line) : UndoLines W [line] :=
  undoLines_nil.cons h hline

theorem undoLines_map {α : Type} (h : key ∈ W) (l : List α) (hline : UndoLine key line) :
    UndoLines W (l.map fun _ => line) := by
  rintro line' hline'
  obtain ⟨a, -, rfl⟩ := List.mem_map.mp hline'
  exact ⟨key, h, hline⟩

end

theorem restorer_name : ∀ p ∈ restorers, cmdTable (toLower (bytes p.1)) = some p.2 := by decide

section

variable [LinearOrder σ] [Inhabited σ]

theorem restorer_confined {first : Slice} {args : List Slice} (h : text first ∈ W) (p : String × CommandName)
    (hp : p ∈ restorers) : Confined W R ((command env p.2).executor (first :: args)) := by
  simp only [restorers, List.mem_cons, List.not_mem_nil, or_false] at hp
  rcases hp with rfl | rfl | rfl | rfl | rfl | rfl | rfl | rfl | rfl | rfl | rfl | rfl
  · exact execPersist_confined args h
  · exact execHMSet_confined args h
  · exact execHSet_confined args h
  · exact execHDel_confined args h
  · exact execZAdd_confined args h
  · exact execSAdd_confined args h
  · exact execSRem_confined args h
  · exact execLPush_confined args h
  · exact execLPop_confined args h
  · exact execLSet_confined args h
  · exact execRPush_confined args h
  · exact execRPop_confined args h

theorem execWithLock_confined {name : Slice} {args : List Slice} {c : CommandName}
    (hc : cmdTable (toLower (text name)) = some c) (h : Confined W R ((command env c).executor args)) :
    Confined W R (execWithLock env (name :: args)) := by
  rw [execWithLock, findCommand]
  simp only [hc]
  cases validateArity (command env c).arity (name :: args) with
  | false => exact .pure trivial
  | true => exact h

theorem restores_confined {line : CmdLine} (h : key ∈ W) (hline : UndoLine key line) :
    Confined W R (execWithLock env line) := by
  cases hline with
  | del => exact execWithLock_confined (c := .del) rfl (execDel_confined [some key] (by simpa [text] using h))
  | set s => exact execWithLock_confined (c := .set) rfl (execSet_confined (show text (some key) ∈ W from h) s)
  | item p first args hc hfirst =>
      exact execWithLock_confined (restorer_name _ hc) (restorer_confined (hfirst ▸ h) _ hc)

end

theorem toTTLCmd_local (key : Bytes) : Local W R (UndoLine key) (toTTLCmd key : Exec σ CmdLine) := by
  apply (getTTL_local key).bind
  intro ttl httl
  subst httl
  exact .pure (.item ("PERSIST", .persist) (some key) [] (by decide) rfl)

theorem entityToCmd_restores {entity : Entity σ} {line : CmdLine} (h : entityToCmd env key entity = some line) :
    UndoLine key line := by
  cases entity with
  | str s =>
      cases h
      exact .set s
  | hash d =>
      cases h
      exact .item ("HMSET", .hMSet) (some key) _ (by decide) rfl
  | list | set | zset => cases h

theorem rollbackGivenKeys_local (keys : List Bytes) (h : ∀ key ∈ keys, key ∈ W) :
    Local W R (UndoLines W) (rollbackGivenKeys env keys) := by
  induction keys with
  | nil => exact .pure undoLines_nil
  | cons key keys ih =>
      rw [List.forall_mem_cons] at h
      apply (getEntity_confined (.inl h.1)).seq
      intro r
      split
      · exact (ih h.2).bind fun lines hlines => .pure (hlines.cons h.1 .del)
      · split
        · exact .panics
        · next hline =>
            refine (toTTLCmd_local key).bind fun ttl httl => (ih h.2).bind fun lines hlines => .pure ?_
            exact ((hlines.cons h.1 httl).cons h.1 (entityToCmd_restores hline)).cons h.1 .del

theorem mapM_restores {restore : Bytes → Option CmdLine} (h : ∀ item line, restore item = some line →
    UndoLine key line) (hkey : key ∈ W) (items : List Bytes) {lines : List CmdLine}
    (hlines : items.mapM restore = some lines) : UndoLines W lines := by
  induction items generalizing lines with
  | nil =>
      cases hlines
      exact undoLines_nil
  | cons item items ih =>
      rw [List.mapM_cons] at hlines
      obtain ⟨line, hline, hlines⟩ := Option.bind_eq_some_iff.mp hlines
      obtain ⟨rest, hrest, heq⟩ := Option.bind_eq_some_iff.mp hlines
      cases heq
      exact (ih hrest).cons hkey (h item line hline)

theorem rollbackItems_local {α : Type} (view : Entity σ → Option α) {restore : α → Bytes → Option CmdLine}
    (h : key ∈ W) (hrestore : ∀ a item line, restore a item = some line → UndoLine key line)
    (items : List Bytes) : Local W R (UndoLines W) (rollbackItems env view restore key items) := by
  apply (getAs_confined (.inl h) view).seq
  intro r
  split
  · exact .pure undoLines_nil
  · exact .pure (.single h .del)
  · split
    · exact .panics
    · next hlines => exact .pure (mapM_restores (hrestore _) h items hlines)

theorem rollbackHashFields_local (h : key ∈ W) (fields : List Bytes) :
    Local W R (UndoLines W) (rollbackHashFields env key fields) := by
  refine rollbackItems_local _ h (fun d field line hline => ?_) fields
  cases hline
  split
  · exact .item ("HSET", .hSet) (some key) [some field, some _] (by decide) rfl
  · exact .item ("HDEL", .hDel) (some key) [some field] (by decide) rfl

theorem rollbackSetMembers_local (h : key ∈ W) (members : List Bytes) :
    Local W R (UndoLines W) (rollbackSetMembers env key members) := by
  refine rollbackItems_local _ h (fun s member line hline => ?_) members
  cases hline
  split
  · exact .item ("SADD", .sAdd) (some key) [some member] (by decide) rfl
  · exact .item ("SREM", .sRem) (some key) [some member] (by decide) rfl

theorem undoElement_local (h : key ∈ W) (index : Int → Option Int) {lines : Slice → List CmdLine}
    (hlines : ∀ element, UndoLines W (lines element)) :
    Local W R (UndoLines W) (undoElement env key index lines) := by
  apply (getAs_confined (.inl h) _).seq
  intro r
  split
  · exact .pure undoLines_nil
  · exact .pure undoLines_nil
  · split
    · exact .pure undoLines_nil
    · split
      · exact .panics
      · exact .pure (hlines _)

section

variable {args : List Slice}

theorem head_writes {first : Slice} {rest : List Slice} (h : ∀ key ∈ (writeFirstKey (first :: rest)).1, key ∈ W) :
    text first ∈ W := h _ (by simp [writeFirstKey])

theorem rollbackFirstKey_local (h : ∀ key ∈ (writeFirstKey args).1, key ∈ W) :
    Local W R (UndoLines W) (rollbackFirstKey env args) := by
  cases args with
  | nil => exact .panics
  | cons key rest => exact rollbackGivenKeys_local _ (by simpa using head_writes h)

theorem undoExpire_local (h : ∀ key ∈ (writeFirstKey args).1, key ∈ W) :
    Local W R (UndoLines W) (undoExpire args : Exec σ (List CmdLine)) := by
  cases args with
  | nil => exact .panics
  | cons key rest => exact (toTTLCmd_local _).bind fun line hline => .pure (.single (head_writes h) hline)

theorem undoRename_local (h : ∀ key ∈ (prepareRename args).1 ++ (prepareRename args).2, key ∈ W) :
    Local W R (UndoLines W) (undoRename env args) := by
  unfold undoRename
  split
  · apply rollbackGivenKeys_local _
    simp only [prepareRename, List.singleton_append, List.forall_mem_cons] at h ⊢
    exact ⟨h.2.1, h.1, by simp⟩
  · exact .panics

theorem undoHSet_local (h : ∀ key ∈ (writeFirstKey args).1, key ∈ W) :
    Local W R (UndoLines W) (undoHSet env args) := by
  unfold undoHSet
  split
  · exact rollbackHashFields_local (head_writes h) _
  · exact .panics

theorem undoHDel_local (h : ∀ key ∈ (writeFirstKey args).1, key ∈ W) :
    Local W R (UndoLines W) (undoHDel env args) := by
  unfold undoHDel
  split
  · exact rollbackHashFields_local (head_writes h) _
  · exact .panics

theorem undoHMSet_local (h : ∀ key ∈ (writeFirstKey args).1, key ∈ W) :
    Local W R (UndoLines W) (undoHMSet env args) := by
  unfold undoHMSet
  split
  · exact rollbackHashFields_local (head_writes h) _
  · exact .panics

theorem undoSetChange_local (h : ∀ key ∈ (writeFirstKey args).1, key ∈ W) :
    Local W R (UndoLines W) (undoSetChange env args) := by
  unfold undoSetChange
  split
  · exact rollbackSetMembers_local (head_writes h) _
  · exact .panics

theorem undoLPush_local (h : ∀ key ∈ (writeFirstKey args).1, key ∈ W) :
    Local W R (UndoLines W) (undoLPush args : Exec σ (List CmdLine)) := by
  cases args with
  | nil => exact .panics
  | cons key values => exact .pure (undoLines_map (head_writes h) values
      (.item ("LPOP", .lPop) (some (text key)) [] (by decide) rfl))

theorem undoRPush_local (h : ∀ key ∈ (writeFirstKey args).1, key ∈ W) :
    Local W R (UndoLines W) (undoRPush args : Exec σ (List CmdLine)) := by
  cases args with
  | nil => exact .panics
  | cons key values => exact .pure (undoLines_map (head_writes h) values
      (.item ("RPOP", .rPop) (some (text key)) [] (by decide) rfl))

theorem undoLPop_local (h : ∀ key ∈ (writeFirstKey args).1, key ∈ W) :
    Local W R (UndoLines W) (undoLPop env args) := by
  unfold undoLPop
  split
  · next key rest =>
      exact undoElement_local (head_writes h) _ fun element => .single (head_writes h)
        (.item ("LPUSH", .lPush) key [element] (by decide) rfl)
  · exact .panics

theorem undoRPop_local (h : ∀ key ∈ (writeFirstKey args).1, key ∈ W) :
    Local W R (UndoLines W) (undoRPop env args) := by
  unfold undoRPop
  split
  · next key rest =>
      exact undoElement_local (head_writes h) _ fun element => .single (head_writes h)
        (.item ("RPUSH", .rPush) key [element] (by decide) rfl)
  · exact .panics

theorem undoLSet_local (h : ∀ key ∈ (writeFirstKey args).1, key ∈ W) :
    Local W R (UndoLines W) (undoLSet env args) := by
  unfold undoLSet
  split
  · next key rawIndex rest =>
      split
      · exact .pure undoLines_nil
      · exact undoElement_local (head_writes h) _ fun element => .single (head_writes h)
          (.item ("LSET", .lSet) key [rawIndex, element] (by decide) rfl)
  · exact .panics

theorem undoRPopLPush_local (h : ∀ key ∈ (prepareRPopLPush args).1, key ∈ W) :
    Local W R (UndoLines W) (undoRPopLPush env args) := by
  unfold undoRPopLPush
  split
  · next source dest rest =>
      simp only [prepareRPopLPush, List.forall_mem_cons] at h
      exact undoElement_local h.1 _ fun element => (UndoLines.single h.2.1
        (.item ("LPOP", .lPop) dest [] (by decide) rfl)).cons h.1
        (.item ("RPUSH", .rPush) source [element] (by decide) rfl)
  · exact .panics

theorem rollbackZSetFields_local (h : key ∈ W) (fields : List Bytes) :
    Local W R (UndoLines W) (rollbackZSetFields env key fields) := by
  refine rollbackItems_local _ h (fun z field line hline => ?_) fields
  obtain ⟨score, -, rfl⟩ := Option.map_eq_some_iff.mp hline
  exact .item ("ZADD", .zAdd) (some key) [some _, some field] (by decide) rfl

theorem undoZAdd_local (h : ∀ key ∈ (writeFirstKey args).1, key ∈ W) :
    Local W R (UndoLines W) (undoZAdd env args) := by
  unfold undoZAdd
  split
  · exact rollbackZSetFields_local (head_writes h) _
  · exact .panics

theorem undoZRem_local (h : ∀ key ∈ (writeFirstKey args).1, key ∈ W) :
    Local W R (UndoLines W) (undoZRem env args) := by
  unfold undoZRem
  split
  · exact rollbackZSetFields_local (head_writes h) _
  · exact .panics

theorem undoZIncr_local (h : ∀ key ∈ (writeFirstKey args).1, key ∈ W) :
    Local W R (UndoLines W) (undoZIncr env args) := by
  unfold undoZIncr
  split
  · exact rollbackZSetFields_local (head_writes h) _
  · exact .panics

variable [LinearOrder σ] [Inhabited σ]

/-- The lines that undo a command restore keys that it writes, and are found by reading these. -/
theorem undo_local (c : CommandName) {undo : List Slice → Exec σ (List CmdLine)}
    (hundo : (command env c).undo = some undo)
    (h : ∀ key ∈ ((command env c).prepare args).1 ++ movedKeys c args, key ∈ W) :
    Local W R (UndoLines W) (undo args) := by
  have hprepare (key : Bytes) (hkey : key ∈ ((command env c).prepare args).1) : key ∈ W :=
    h key (List.mem_append_left _ hkey)
  cases c
  case set | setNx | setEX | pSetEX | getEX | getSet | getDel | incr | incrBy | incrByFloat
      | decr | decrBy | append | setRange | setBit | lRem | zPopMin | zRemRangeByScore
      | zRemRangeByRank =>
    cases hundo
    exact rollbackFirstKey_local hprepare
  case sInterStore | sUnionStore | sDiffStore =>
    cases hundo
    refine rollbackFirstKey_local fun key hkey => hprepare key ?_
    cases args with
    | nil => exact hkey
    | cons dest keys => exact hkey
  case mset | mSetNX =>
    cases hundo
    exact rollbackGivenKeys_local _ hprepare
  case mget | get | strLen | getRange | getBit | bitCount | bitPos | ttl | pttl | exists_
      | type | keys | lLen | lIndex | lRange | hExists | hLen | hStrlen | hMGet | hGet | hKeys
      | hVals | hGetAll | hRandField | sIsMember | sCard | sMembers | sInter | sUnion | sDiff
      | sRandMember | zScore | zRank | zCount | zRevRank | zCard | zRange | zRangeByScore
      | zRevRange | zRevRangeByScore | ping =>
    cases hundo
  case del =>
    cases hundo
    exact rollbackGivenKeys_local _ hprepare
  case expire | expireAt | pExpire | pExpireAt | persist =>
    cases hundo
    exact undoExpire_local hprepare
  case rename | renameNx =>
    cases hundo
    exact undoRename_local h
  case lPush | lPushX =>
    cases hundo
    exact undoLPush_local hprepare
  case rPush | rPushX =>
    cases hundo
    exact undoRPush_local hprepare
  case lPop =>
    cases hundo
    exact undoLPop_local hprepare
  case rPop =>
    cases hundo
    exact undoRPop_local hprepare
  case rPopLPush =>
    cases hundo
    exact undoRPopLPush_local hprepare
  case lSet =>
    cases hundo
    exact undoLSet_local hprepare
  case hSet | hSetNX | hIncrBy | hIncrByFloat =>
    cases hundo
    exact undoHSet_local hprepare
  case hDel =>
    cases hundo
    exact undoHDel_local hprepare
  case hMSet =>
    cases hundo
    exact undoHMSet_local hprepare
  case sAdd | sRem | sPop =>
    cases hundo
    exact undoSetChange_local hprepare
  case zAdd =>
    cases hundo
    exact undoZAdd_local hprepare
  case zIncrBy =>
    cases hundo
    exact undoZIncr_local hprepare
  case zRem =>
    cases hundo
    exact undoZRem_local hprepare

end

end Traitor.Database
