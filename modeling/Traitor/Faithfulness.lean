import Traitor.LostScores

namespace Traitor.Database

open Lib.Effects Lib.Strconv Protocol

variable {σ : Type} [LinearOrder σ] [Inhabited σ] {env : Env σ} {ch : Choices} {w : World σ} {args : List Slice}

section

variable (env) (ch) (w) (args)

/-- What each command needs to leave something that a load of its lines does not bring back. -/
def Loses : CommandName → Prop
  | .set => SetLoses env w args
  | .setEX => SetEXLoses env args 1000
  | .pSetEX => SetEXLoses env args 1
  | .getEX => GetEXLoses env w args
  | .setBit => SetBitLoses env w args
  | .expire => ExpireLoses w args fun n => env.now + wrap64 (n * second)
  | .expireAt => ExpireLoses w args unixTime
  | .pExpire => ExpireLoses w args fun n => env.now + wrap64 (n * millisecond)
  | .pExpireAt => ExpireLoses w args fun n => wrap64 (n * millisecond)
  | .rPop => RPopSpoils env w args
  | .rPopLPush => RPopLPushSpoils env w args
  | .lRem => LRemLoses env w args
  | .hDel => HDelLoses w args
  | .hIncrByFloat => HIncrByFloatLoses env w args
  | .sRem => SRemLoses w args
  | .sPop => SPopLoses env ch w args
  | .sInterStore => StoreLoses w args InterEmpty
  | .sUnionStore => StoreLoses w args UnionEmpty
  | .sDiffStore => StoreLoses w args DiffEmpty
  | .zAdd => ZAddLoses env w args
  | .zIncrBy => ZIncrByLoses env ch w args
  | _ => False

end

/-- `GETSET` hands on a `SET`. -/
theorem execGetSet_logged (hfresh : NoneExpired env w) (harity : validateArity 3 (cmdLine3 "getset" args) = true) :
    Logged env ch (execGetSet env args) w := by
  rcases args with _ | ⟨key, _ | ⟨value, _ | ⟨a, rest⟩⟩⟩
  · exact .panics
  · exact .panics
  · rw [Logged.iff_final, execGetSet_final, hfresh.evict]
    dsimp only
    split
    · exact .of_slot rfl rfl
    · refine (recovers_append_iff rfl).mpr fun k => Slot.agrees_of_eq ?_
      rw [loadAof_cons, loadAof_nil, load_set rfl rfl w rfl]
      by_cases hk : k = text key <;> simp [hk]
  · simp [validateArity, cmdLine3] at harity
    omega

/-- `GETDEL` hands on a `DEL`. -/
theorem execGetDel_logged (hfresh : NoneExpired env w) (harity : validateArity 2 (cmdLine3 "getdel" args) = true) :
    Logged env ch (execGetDel env args) w := by
  rcases args with _ | ⟨key, _ | ⟨a, rest⟩⟩
  · exact .panics
  · rw [Logged, execGetDel, wp_bind, wp_getAsString, hfresh.evict]
    cases hs : (w.db.slot (text key)).string env.now with
    | error e => exact .of_slot rfl rfl
    | ok s =>
        cases s with
        | none => exact .of_slot rfl rfl
        | some s =>
            have hdata : w.db.data.lookup (text key) = some (.str (some s)) :=
              Slot.live_data (Slot.string_eq_some.mp hs)
            simp only [remove, wp_bind, wp_modifyDB, wp_addAof, wp_pure]
            refine (recovers_append_iff rfl).mpr fun k => Slot.agrees_of_eq ?_
            rw [loadAof_cons, loadAof_nil, exec_slot (c := .del) rfl rfl]
            have hdel : (final (execDel [key]) w).db = w.db.remove (text key) := by
              have hfinal : final (removes [text key]) w = ⟨w.db.remove (text key), w.aof⟩ :=
                final_eq (by simp [removes, has, remove, hdata])
              rw [(execDel_final [key] w).1, List.map_singleton, hfinal]
            exact congrArg (fun db => db.slot k) hdel.symm
  · simp [validateArity, cmdLine3] at harity
    omega

/-- The line of `SETRANGE` has its name in another spelling. -/
theorem cmdTable_setRange : cmdTable (toLower (bytes "setRange")) = some .setRange := by
  rw [show toLower (bytes "setRange") = toLower (bytes CommandName.setRange.name) by decide]
  exact cmdTable_name .setRange

/-- The arity does not depend on the spelling. -/
theorem validateArity_spelling (arity : Int) (name name' : String) (args : List Slice) :
    validateArity arity (cmdLine3 name args) = validateArity arity (cmdLine3 name' args) := rfl

theorem command_logged_iff (hfresh : NoneExpired env w) (c : CommandName)
    (harity : validateArity (command env c).arity (cmdLine3 c.name args) = true) :
    Logged env ch ((command env c).executor args) w ↔ ¬ Loses env ch w args c :=
  have quiet {m : Exec σ Reply} (h : Moves (Quiet env) m) : Logged env ch m w ↔ ¬ False :=
    iff_of_true (.of_moves hfresh h) id
  have again {m : Exec σ Reply} (hm : (command env c).executor args = m) (hc : c ∈ steady)
      (h : Journals env (Verbatim c.name args) m) : Logged env ch m w ↔ ¬ False := by
    subst hm
    exact iff_of_true (.of_journalsAt (cmdTable_name c) harity (steady_of_mem hc args) hfresh (h w)) id
  match c with
  | .set => execSet_logged_iff
  | .setNx => again rfl (by decide) (execSetNX_journals env args)
  | .setEX => setWithTTL_logged_iff 1000 harity
  | .pSetEX => setWithTTL_logged_iff 1 harity
  | .mset => again rfl (by decide) (execMSet_journals env args)
  | .mSetNX => again rfl (by decide) (execMSetNX_journals env args)
  | .getEX => execGetEX_logged_iff hfresh
  | .getSet => iff_of_true (execGetSet_logged hfresh harity) id
  | .getDel => iff_of_true (execGetDel_logged hfresh harity) id
  | .incr => again rfl (by decide) (execIncr_journals env args)
  | .incrBy => again rfl (by decide) (execIncrBy_journals env args)
  | .incrByFloat => again rfl (by decide) (execIncrByFloat_journals env args)
  | .decr => again rfl (by decide) (execDecr_journals env args)
  | .decrBy => again rfl (by decide) (execDecrBy_journals env args)
  | .append => again rfl (by decide) (execAppend_journals env args)
  | .setRange =>
      iff_of_true (.of_journalsAt cmdTable_setRange ((validateArity_spelling _ _ _ args).trans harity)
        (steady_of_mem (by decide) args) hfresh (execSetRange_journals env args w)) id
  | .setBit => execSetBit_logged_iff hfresh
  | .del => again rfl (by decide) (execDel_journals env args)
  | .expire => expireCommand_logged_iff hfresh _
  | .expireAt => expireCommand_logged_iff hfresh _
  | .pExpire => expireCommand_logged_iff hfresh _
  | .pExpireAt => expireCommand_logged_iff hfresh _
  | .persist => again rfl (by decide) (execPersist_journals env args)
  | .rename => again rfl (by decide) (execRename_journals env args)
  | .renameNx => again rfl (by decide) (execRenameNx_journals env args)
  | .lPush => again rfl (by decide) (execLPush_journals env args)
  | .lPushX => again rfl (by decide) (execLPushX_journals env args)
  | .rPush => again rfl (by decide) (execRPush_journals env args)
  | .rPushX => again rfl (by decide) (execRPushX_journals env args)
  | .lPop => again rfl (by decide) (execLPop_journals env args)
  | .rPop => execRPop_logged_iff hfresh harity
  | .rPopLPush => execRPopLPush_logged_iff hfresh harity
  | .lRem => execLRem_logged_iff hfresh harity
  | .lSet => again rfl (by decide) (execLSet_journals env args)
  | .hSet => again rfl (by decide) (execHSet_journals env args)
  | .hSetNX => again rfl (by decide) (execHSetNX_journals env args)
  | .hDel => execHDel_logged_iff hfresh harity
  | .hMSet => again rfl (by decide) (execHMSet_journals env args)
  | .hIncrBy => again rfl (by decide) (execHIncrBy_journals env args)
  | .hIncrByFloat => execHIncrByFloat_logged_iff hfresh harity
  | .sAdd => again rfl (by decide) (execSAdd_journals env args)
  | .sRem => execSRem_logged_iff hfresh harity
  | .sPop => execSPop_logged_iff hfresh
  | .sInterStore => execSInterStore_logged_iff hfresh harity
  | .sUnionStore => execSUnionStore_logged_iff hfresh harity
  | .sDiffStore => execSDiffStore_logged_iff hfresh harity
  | .zAdd => execZAdd_logged_iff hfresh
  | .zIncrBy => execZIncrBy_logged_iff hfresh harity
  | .zPopMin => again rfl (by decide) (execZPopMin_journals env args)
  | .zRem => again rfl (by decide) (execZRem_journals env args)
  | .zRemRangeByScore => again rfl (by decide) (execZRemRangeByScore_journals env args)
  | .zRemRangeByRank => again rfl (by decide) (execZRemRangeByRank_journals env args)
  | .mget | .get | .strLen | .getRange | .getBit | .bitCount | .bitPos | .ttl | .pttl | .exists_ | .type
      | .keys | .lLen | .lIndex | .lRange | .hExists | .hLen | .hStrlen | .hMGet | .hGet | .hKeys | .hVals
      | .hGetAll | .hRandField | .sIsMember | .sCard | .sMembers | .sInter | .sUnion | .sDiff | .sRandMember
      | .zScore | .zRank | .zCount | .zRevRank | .zCard | .zRange | .zRangeByScore | .zRevRange
      | .zRevRangeByScore | .ping => quiet (read_moves env args rfl)

section

variable (env) (ch) (w) (line : CmdLine)

/-- What a line leaves is what a load of the lines it hands on leaves, at the same instant and with
the random choices of another run. -/
def LogsFaithfully : Prop := Recovers env ch w (exec env line w).2

def LosesLine : Prop :=
  ∃ name args c, line = name :: args ∧ cmdTable (toLower (text name)) = some c ∧
    validateArity (command env c).arity line = true ∧ Loses env ch w args c

end

omit [LinearOrder σ] [Inhabited σ] in
theorem meetsSet_versions (versionMap : Bytes → UInt32) (keys : List Bytes) :
    MeetsSet (w.versions versionMap) keys ↔ MeetsSet w keys := by
  induction keys with
  | nil => exact Iff.rfl
  | cons key keys ih => exact or_congr Iff.rfl (and_congr Iff.rfl ih)

omit [Inhabited σ] in
theorem loses_versions (versionMap : Bytes → UInt32) (c : CommandName) :
    Loses env ch (w.versions versionMap) args c ↔ Loses env ch w args c := by
  cases c with
  | sDiffStore =>
      have hempty (keys : List Bytes) : DiffEmpty (w.versions versionMap) keys ↔ DiffEmpty w keys := by
        cases keys with
        | nil => exact Iff.rfl
        | cons key keys => exact or_congr Iff.rfl (and_congr Iff.rfl (meetsSet_versions versionMap keys))
      simp only [Loses, StoreLoses, hempty]
      exact Iff.rfl
  | _ => exact Iff.rfl

theorem logsFaithfully_command {name : Slice} {c : CommandName} (hfresh : NoneExpired env w)
    (hc : cmdTable (toLower (text name)) = some c)
    (harity : validateArity (command env c).arity (name :: args) = true) :
    LogsFaithfully env ch w (name :: args) ↔ ¬ Loses env ch w args c := by
  obtain ⟨versionMap, hexec⟩ := exec_command (w := w) hc harity
  have hlogged : Logged env ch ((command env c).executor args) (w.versions versionMap) ↔ _ :=
    command_logged_iff (w := w.versions versionMap) hfresh c harity
  rw [← loses_versions versionMap, ← hlogged, Logged.iff_final, recovers_versions_iff, LogsFaithfully, hexec]

theorem logsFaithfully_of_eq {line : CmdLine} (h : (exec env line w).2 = w) : LogsFaithfully env ch w line := by
  rw [LogsFaithfully, h]
  exact .of_slot rfl rfl

theorem logsFaithfully_iff (hfresh : NoneExpired env w) (line : CmdLine) :
    LogsFaithfully env ch w line ↔ ¬ LosesLine env ch w line := by
  rcases line with _ | ⟨name, args⟩
  · exact iff_of_true (logsFaithfully_of_eq exec_nil) (by simp [LosesLine])
  · cases hc : cmdTable (toLower (text name)) with
    | none =>
        apply iff_of_true (logsFaithfully_of_eq (exec_unknown hc))
        rintro ⟨name', args', c, heq, hc', -⟩
        cases heq
        rw [hc] at hc'
        cases hc'
    | some c =>
        cases harity : validateArity (command env c).arity (name :: args) with
        | false =>
            apply iff_of_true (logsFaithfully_of_eq (exec_badArity hc harity))
            rintro ⟨name', args', c', heq, hc', harity', -⟩
            cases heq
            obtain rfl := Option.some.inj (hc.symm.trans hc')
            rw [harity] at harity'
            cases harity'
        | true =>
            rw [logsFaithfully_command hfresh hc harity, not_iff_not]
            constructor
            · exact fun h => ⟨name, args, c, rfl, hc, harity, h⟩
            · rintro ⟨name', args', c', heq, hc', -, h⟩
              cases heq
              obtain rfl := Option.some.inj (hc.symm.trans hc')
              exact h

theorem noneExpired_empty (t : Int) : NoneExpired (Env.plain t) ⟨⟨∅, ∅, fun _ => 0⟩, []⟩ := by
  intro key
  simp [DB.slot, Slot.isExpired]

/-- `APPEND k v` on an empty database. -/
theorem append_logsFaithfully :
    LogsFaithfully (Env.plain 0) (Env.plain 0).choices ⟨⟨∅, ∅, fun _ => 0⟩, []⟩
      [some (bytes "append"), some (bytes "k"), some (bytes "v")] := by
  apply (logsFaithfully_iff (noneExpired_empty 0) _).mpr
  rintro ⟨name, args, c, heq, hc, -, h⟩
  cases heq
  obtain rfl := Option.some.inj (hc.symm.trans (cmdTable_name .append))
  exact h

/-- `SETBIT k 0 1` on an empty database makes the key, and nothing is handed on. -/
theorem setBit_not_logsFaithfully :
    ¬ ∀ (w : World ℤ) (line : CmdLine), NoneExpired (Env.plain 0) w →
      LogsFaithfully (Env.plain 0) (Env.plain 0).choices w line := by
  intro h
  have hline := h ⟨⟨∅, ∅, fun _ => 0⟩, []⟩
    [some (bytes "setbit"), some (bytes "k"), some (bytes "0"), some (bytes "1")] (noneExpired_empty 0)
  rw [logsFaithfully_command (c := .setBit) (noneExpired_empty 0) rfl rfl] at hline
  refine hline ⟨_, _, _, _, 0, 1, none, [1], rfl, rfl, rfl, ?_, ?_, ?_, ?_⟩
  · simp [DB.slot, Slot.string, Slot.live, Slot.isExpired]
  · decide
  · decide
  · simp [DB.slot]

end Traitor.Database
