import Traitor.Replay
import Traitor.SortedSetSizes

namespace Traitor.Database

open Lib.Effects Lib.Strconv Protocol

variable {σ : Type} [LinearOrder σ] [Inhabited σ]

section

variable (env : Env σ) (w : World σ) (args : List Slice)

def LRemEmpties : Prop :=
  ∃ key rawCount value rest count l, args = key :: rawCount :: value :: rest ∧
    parseInt 64 (text rawCount) = some count ∧ w.db.live env (text key) = some (.list l) ∧
    RemovesTooMany l value count

def SPopEmpties : Prop :=
  ∃ key rest count s, args = key :: rest ∧ rest.length ≤ 1 ∧ popCount rest = some count ∧
    w.db.live env (text key) = some (.set s) ∧ (s.card : Int) ≤ count

def SInterStoreEmpties : Prop :=
  ∃ dest key s, args = [dest, key] ∧ w.db.live env (text key) = some (.set s)

def SUnionStoreEmpties : Prop :=
  ∃ dest keys, args = dest :: keys ∧
    (∀ key ∈ keys, w.db.live env (text key) = none ∨ ∃ s, w.db.live env (text key) = some (.set s)) ∧
    ∃ key ∈ keys, w.db.live env (text key) ≠ none

def SDiffStoreEmpties : Prop :=
  ∃ dest key keys s, args = dest :: key :: keys ∧ w.db.live env (text key) = some (.set s) ∧
    ∀ k ∈ keys, w.db.live env (text k) = none

def ZAddEmpties : Prop :=
  ∃ key rest elements, args = key :: rest ∧ rest.length % 2 = 0 ∧
    parseElements env rest = some elements ∧
    (w.db.live env (text key) = none ∧ ZSet.make.UnlinksAll env.choices 0 elements ∨
      ∃ z, w.db.live env (text key) = some (.zset z) ∧ z.UnlinksAll env.choices 0 elements)

def ZIncrByEmpties : Prop :=
  ∃ key rawDelta field rest delta, args = key :: rawDelta :: field :: rest ∧
    env.lib.parseFloat (text rawDelta) = some delta ∧
    (w.db.live env (text key) = none ∨
      ∃ z old, w.db.live env (text key) = some (.zset z) ∧ z.dict.lookup (text field) = some old ∧
        z.Unlinks (text field) (env.lib.addFloat old delta) (env.choices.height 0))

def ZRemEmpties : Prop :=
  ∃ key fields z, args = key :: fields ∧ w.db.live env (text key) = some (.zset z) ∧
    ∀ a ∈ z.nodes, a.member ∈ fields.map text

def ZRemRangeByScoreEmpties : Prop :=
  ∃ key rawMin rawMax min max z, args = [key, rawMin, rawMax] ∧
    parseScoreBorder env (text rawMin) = some (some min) ∧
    parseScoreBorder env (text rawMax) = some (some max) ∧
    w.db.live env (text key) = some (.zset z) ∧ z.Within min max

def ZRemRangeByRankEmpties : Prop :=
  ∃ key rawStart rawStop rest start stop z, args = key :: rawStart :: rawStop :: rest ∧
    parseInt 64 (text rawStart) = some start ∧ parseInt 64 (text rawStop) = some stop ∧
    w.db.live env (text key) = some (.zset z) ∧ sliceRange start stop z.len = some (0, z.len)

def ZPopMinEmpties : Prop :=
  ∃ key rest count z, args = key :: rest ∧ popMinCount rest = some count ∧
    w.db.live env (text key) = some (.zset z) ∧ (count ≤ 0 ∨ z.len ≤ count)

def Empties : CommandName → Prop
  | .lRem => LRemEmpties env w args
  | .sPop => SPopEmpties env w args
  | .sInterStore => SInterStoreEmpties env w args
  | .sUnionStore => SUnionStoreEmpties env w args
  | .sDiffStore => SDiffStoreEmpties env w args
  | .zAdd => ZAddEmpties env w args
  | .zIncrBy => ZIncrByEmpties env w args
  | .zRem => ZRemEmpties env w args
  | .zRemRangeByScore => ZRemRangeByScoreEmpties env w args
  | .zRemRangeByRank => ZRemRangeByRankEmpties env w args
  | .zPopMin => ZPopMinEmpties env w args
  | _ => False

end

section

variable {env : Env σ} {w : World σ} {args : List Slice} {c : CommandName} {name : Slice}

omit [LinearOrder σ] [Inhabited σ] in
theorem length_args {arity : Int} {n : Nat} (h : validateArity arity (name :: args) = true)
    (harity : arity = -(n + 1 : Nat)) : n ≤ args.length := by
  subst harity
  simp only [validateArity, List.length_cons] at h
  rw [if_neg (by omega)] at h
  have hle := of_decide_eq_true h
  omega

theorem command_full (c : CommandName) (args : List Slice) (h : w.db.Full)
    (harity : validateArity (command env c).arity (name :: args) = true) (hne : ¬ Empties env w args c) :
    FullAfter ((command env c).executor args) w :=
  have quiet {m : Exec σ Reply} (hm : Moves (Quiet env) m) : FullAfter m w := .of_fills h (fills_of_quiet hm)
  have arity (n : Nat) (hn : (command env c).arity = -(n + 1 : Nat)) : n ≤ args.length :=
    length_args harity hn
  match c with
  | .set => .of_fills h (execSet_fills args)
  | .setNx => .of_fills h (execSetNX_fills args)
  | .setEX => .of_fills h (setWithTTL_fills args _)
  | .pSetEX => .of_fills h (setWithTTL_fills args _)
  | .mset => .of_fills h (execMSet_fills args)
  | .mSetNX => .of_fills h (execMSetNX_fills args)
  | .getEX => .of_fills h (execGetEX_fills args)
  | .getSet => .of_fills h (execGetSet_fills args)
  | .getDel => .of_fills h (execGetDel_fills args)
  | .incr => .of_fills h (execIncr_fills args)
  | .incrBy => .of_fills h (execIncrBy_fills args)
  | .incrByFloat => .of_fills h (execIncrByFloat_fills args)
  | .decr => .of_fills h (execDecr_fills args)
  | .decrBy => .of_fills h (execDecrBy_fills args)
  | .append => .of_fills h (execAppend_fills args)
  | .setRange => .of_fills h (execSetRange_fills args)
  | .setBit => .of_fills h (execSetBit_fills args)
  | .del => .of_fills h (execDel_fills args)
  | .expire => .of_fills h (expireCommand_fills args _)
  | .expireAt => .of_fills h (expireCommand_fills args _)
  | .pExpire => .of_fills h (expireCommand_fills args _)
  | .pExpireAt => .of_fills h (expireCommand_fills args _)
  | .persist => .of_fills h (execPersist_fills args)
  | .rename => execRename_full args h
  | .renameNx => execRenameNx_full args h
  | .lPush => execLPush_full args h (arity 2 rfl)
  | .lPushX => execLPushX_full args h
  | .rPush => execRPush_full args h (arity 2 rfl)
  | .rPushX => execRPushX_full args h
  | .lPop => execLPop_full args h
  | .rPop => execRPop_full args h
  | .rPopLPush => execRPopLPush_full args h
  | .lRem => execLRem_full args h fun key rawCount value rest count l hargs hcount hlive hrem =>
      hne ⟨key, rawCount, value, rest, count, l, hargs, hcount, hlive, hrem⟩
  | .lSet => execLSet_full args h
  | .hSet => execHSet_full args h
  | .hSetNX => execHSetNX_full args h
  | .hDel => execHDel_full args h
  | .hMSet => execHMSet_full args h (arity 3 rfl)
  | .hIncrBy => execHIncrBy_full args h
  | .hIncrByFloat => execHIncrByFloat_full args h
  | .sAdd => execSAdd_full args h (arity 2 rfl)
  | .sRem => execSRem_full args h
  | .sPop => execSPop_full args h fun key rest count s hargs hrest hcount hlive =>
      not_le.mp fun hle => hne ⟨key, rest, count, s, hargs, hrest, hcount, hlive, hle⟩
  | .sInterStore => execSInterStore_full args h fun dest key s hargs hlive =>
      hne ⟨dest, key, s, hargs, hlive⟩
  | .sUnionStore => execSUnionStore_full args h fun dest keys hargs hall key hkey => by
      by_contra hlive
      exact hne ⟨dest, keys, hargs, hall, key, hkey, hlive⟩
  | .sDiffStore => execSDiffStore_full args h fun dest key keys s hargs hlive => by
      by_contra hnone
      exact hne ⟨dest, key, keys, s, hargs, hlive, by simpa using hnone⟩
  | .zAdd => execZAdd_full args h (arity 3 rfl) fun key rest elements hargs heven helements =>
      ⟨fun hlive hlinks => hne ⟨key, rest, elements, hargs, heven, helements, .inl ⟨hlive, hlinks⟩⟩,
        fun z hlive hlinks => hne ⟨key, rest, elements, hargs, heven, helements, .inr ⟨z, hlive, hlinks⟩⟩⟩
  | .zIncrBy => execZIncrBy_full args h fun key rawDelta field rest delta hargs hdelta =>
      ⟨fun hlive => hne ⟨key, rawDelta, field, rest, delta, hargs, hdelta, .inl hlive⟩,
        fun z old hlive hold hlinks =>
          hne ⟨key, rawDelta, field, rest, delta, hargs, hdelta, .inr ⟨z, old, hlive, hold, hlinks⟩⟩⟩
  | .zPopMin => execZPopMin_full args h fun key rest count z hargs hcount hlive => by
      by_contra hout
      exact hne ⟨key, rest, count, z, hargs, hcount, hlive, by omega⟩
  | .zRem => execZRem_full args h fun key fields z hargs hlive => by
      by_contra hall
      exact hne ⟨key, fields, z, hargs, hlive, by simpa using hall⟩
  | .zRemRangeByScore => execZRemRangeByScore_full args h
      fun key rawMin rawMax min max z hargs hmin hmax hlive hin =>
        hne ⟨key, rawMin, rawMax, min, max, z, hargs, hmin, hmax, hlive, hin⟩
  | .zRemRangeByRank => execZRemRangeByRank_full args h
      fun key rawStart rawStop rest start stop z hargs hstart hstop hlive hslice =>
        hne ⟨key, rawStart, rawStop, rest, start, stop, z, hargs, hstart, hstop, hlive, hslice⟩
  | .mget | .get | .strLen | .getRange | .getBit | .bitCount | .bitPos | .ttl | .pttl | .exists_ | .type
      | .keys | .lLen | .lIndex | .lRange | .hExists | .hLen | .hStrlen | .hMGet | .hGet | .hKeys | .hVals
      | .hGetAll | .hRandField | .sIsMember | .sCard | .sMembers | .sInter | .sUnion | .sDiff | .sRandMember
      | .zScore | .zRank | .zCount | .zRevRank | .zCard | .zRange | .zRangeByScore | .zRevRange
      | .zRevRangeByScore | .ping => quiet (read_moves env args rfl)

def LineEmpties (env : Env σ) (w : World σ) (line : CmdLine) : Prop :=
  ∃ name args c, line = name :: args ∧ cmdTable (toLower (text name)) = some c ∧
    validateArity (command env c).arity line = true ∧ Empties env w args c

theorem exec_full {line : CmdLine} (h : w.db.Full) (hne : ¬ LineEmpties env w line) :
    (exec env line w).2.db.Full := by
  cases line with
  | nil =>
      rw [exec_nil]
      exact h
  | cons name args =>
      cases hc : cmdTable (toLower (text name)) with
      | none =>
          rw [exec_unknown hc]
          exact h
      | some c =>
          cases harity : validateArity (command env c).arity (name :: args) with
          | false =>
              rw [exec_badArity hc harity]
              exact h
          | true =>
              obtain ⟨versionMap, hfinal⟩ := exec_command (w := w) hc harity
              have hquiet : ¬ Empties env (w.versions versionMap) args c := fun hempties =>
                hne ⟨name, args, c, rfl, hc, harity, hempties⟩
              rw [hfinal]
              exact (wp_iff _ _ _).mp (command_full c args (w := w.versions versionMap) h harity hquiet)

/-- What some lines lead to. Each is executed at its own time and with its own random choices. -/
inductive Reached (admits : Env σ → World σ → CmdLine → Prop) : World σ → Prop
  | empty : Reached admits .empty
  | line {w : World σ} (env : Env σ) (line : CmdLine) (h : Reached admits w) (hline : admits env w line) :
      Reached admits (exec env line w).2

omit [LinearOrder σ] [Inhabited σ] in
theorem full_empty : (World.empty : World σ).db.Full := fun _ _ h => by simp [World.empty] at h

/-- No key holds an empty collection unless one of the lines has emptied one. -/
theorem full_of_reached (h : Reached (fun env w line => ¬ LineEmpties env w line) w) : w.db.Full := by
  induction h with
  | empty => exact full_empty
  | line env line _ hline ih => exact exec_full ih hline

end

theorem full_of_reached_sAdd :
    (exec (Env.plain 0) [some (bytes "sadd"), some (bytes "k"), some (bytes "a")] World.empty).2.db.Full := by
  refine full_of_reached (.line _ _ .empty ?_)
  rintro ⟨name, args, c, hline, hc, -, hempties⟩
  cases hline
  obtain rfl : CommandName.sAdd = c := Option.some.inj hc
  exact hempties

/-- A set is stored without an element when its only one is popped. -/
theorem not_full_of_reached : ¬ ∀ w : World ℤ, Reached (fun _ _ _ => True) w → w.db.Full := by
  intro hall
  have hpop (w : World ℤ) (hlive : w.db.live (Env.plain 0) (bytes "k") = some (.set {bytes "a"})) :
      wp (execSPop (Env.plain 0) [some (bytes "k")])
        (fun _ t => t.db.data.lookup (bytes "k") = some (.set ∅)) w := by
    have hview : w.db.view (Env.plain 0) Entity.asSet (bytes "k") = .ok (some {bytes "a"}) := by
      rw [DB.view, hlive]
      rfl
    have hkeys : randomKeys (Env.plain 0).choices {bytes "a"} 1 = some [[], bytes "a"] := by
      simp [randomKeys, dictKeys, Env.plain]
    have hmembers : (removeMembers {bytes "a"} [[], bytes "a"]).1 = ∅ := by decide
    rw [execSPop, popMembers, wp_bind, getAsSet, wp_getAs, text, Option.getD_some, hview]
    simp [popCount, hkeys, hmembers, setSet, putEntity, DB.put, Finmap.lookup_insert]
  let w : World ℤ :=
    (exec (Env.plain 0) [some (bytes "sadd"), some (bytes "k"), some (bytes "a")] .empty).2
  have hspop : ∃ versionMap, (exec (Env.plain 0) [some (bytes "spop"), some (bytes "k")] w).2 =
      final (execSPop (Env.plain 0) [some (bytes "k")]) (w.versions versionMap) :=
    exec_command (c := .sPop) rfl rfl
  obtain ⟨versionMap, hfinal⟩ := hspop
  have hempty := hall _ (.line (Env.plain 0) [some (bytes "spop"), some (bytes "k")]
    (.line (Env.plain 0) [some (bytes "sadd"), some (bytes "k"), some (bytes "a")] .empty trivial) trivial)
  rw [hfinal] at hempty
  exact Finset.not_nonempty_empty (hempty _ _ ((wp_iff _ _ _).mp (hpop _ rfl)))

end Traitor.Database
