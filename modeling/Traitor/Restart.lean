import Mathlib.Logic.Relation
import Traitor.ReplayCommands

namespace Traitor.Database

open Lib.Effects Lib.Strconv Protocol

variable {σ : Type} [LinearOrder σ] [Inhabited σ] {env : Env σ} {T : Int} {key : Bytes}

structure Server (σ : Type) where
  now : Int
  world : World σ

inductive Event
  | pass (d : Nat)
  | command (line : CmdLine)
  | expire (key : Bytes)

def Server.step (env : Env σ) (s : Server σ) : Event → Server σ
  | .pass d => { s with now := s.now + d }
  | .command line => { s with world := (exec (env.atTime s.now) line s.world).2 }
  | .expire key =>
      if s.world.db.isExpired (env.atTime s.now) key
      then { s with world := { s.world with db := s.world.db.remove key } }
      else s

/-- The states of the runs from an empty database in which every event meets a rule on
the state before it. -/
def Reaches (env : Env σ) (ok : Server σ → Event → Prop) : Server σ → Server σ → Prop :=
  Relation.ReflTransGen fun s t => ∃ e, ok s e ∧ t = s.step env e

def restartable : List CommandName :=
  [.set, .getSet, .append, .incr, .incrBy, .decr, .decrBy, .setRange, .del, .expire, .pExpire,
    .expireAt, .pExpireAt, .persist, .getEX]

def Event.Restartable : Event → Prop
  | .command (name :: _) => ∀ c, cmdTable (toLower (text name)) = some c → c ∈ restartable
  | _ => True

/-- A load at the time gives the keys that are live then, with their values, and with
their expirations to the millisecond. -/
def Restores (env : Env σ) (T : Int) (w : World σ) : Prop :=
  ∀ key, (loadAof (env.atTime T) w.aof .empty).db.live (env.atTime T) key =
      w.db.live (env.atTime T) key ∧
    (w.db.live (env.atTime T) key ≠ none →
      ((loadAof (env.atTime T) w.aof .empty).db.ttlMap.lookup key).map (Int.fdiv · millisecond) =
        (w.db.ttlMap.lookup key).map (Int.fdiv · millisecond))

def RestartsAlike (env : Env σ) (ok : Int → Server σ → Event → Prop) : Prop :=
  ∀ now s T, Reaches env (ok T) ⟨now, .empty⟩ s → s.now ≤ T → Restores env T s.world

def SurvivesExpire (env : Env σ) (T : Int) (w : World σ) (instant : Int → Int) (key rawTime : Slice) :
    Prop :=
  ∀ n, parseInt 64 (text rawTime) = some n → (w.db.slot (text key)).live env.now ≠ none →
    Dated T (instant n) ∧ ((w.db.slot (text key)).Lasting T ∨ instant n < T)

/-- What a command needs so that a load at the time follows it: a key that is live and
stays so up to then, for all that read it or make its expiration later, and for a `SET`
with a condition the same answer to the condition. -/
def Survives (env : Env σ) (T : Int) (w : World σ) : CommandName → List Slice → Prop
  | .set, key :: _ :: options => ∀ policy ttl,
      setOptions .upsert unlimitedTTL options = .ok (policy, ttl) →
        policy.allows (w.db.slot (text key)).data.isSome = true →
          if ttl ≠ unlimitedTTL then Dated T (after env ttl)
          else policy.Replays T (lingering (text key) w.aof) (w.db.slot (text key))
  | .getEX, key :: options => ∀ x, (w.db.slot (text key)).string env.now = .ok (some x) →
      match (getExParse unlimitedTTL options).2 with
      | .error _ => (getExParse unlimitedTTL options).1 = true → (w.db.slot (text key)).ttl = none
      | .ok ttl => options = [] ∨
          if ttl ≠ unlimitedTTL then Dated T (after env ttl) ∧
            ((w.db.slot (text key)).Lasting T ∨ after env ttl < T)
          else (w.db.slot (text key)).Lasting T
  | .persist, key :: _ =>
      (w.db.slot (text key)).live env.now ≠ none → (w.db.slot (text key)).Lasting T
  | .expire, key :: rawTime :: _ =>
      SurvivesExpire env T w (fun n => env.now + wrap64 (n * second)) key rawTime
  | .expireAt, key :: rawTime :: _ => SurvivesExpire env T w unixTime key rawTime
  | .pExpire, key :: rawTime :: _ =>
      SurvivesExpire env T w (fun n => env.now + wrap64 (n * millisecond)) key rawTime
  | .pExpireAt, key :: rawTime :: _ =>
      SurvivesExpire env T w (fun n => wrap64 (n * millisecond)) key rawTime
  | c, args => ∀ key f, edited c args = some (key, f) →
      ∀ s x, (w.db.slot (text key)).string env.now = .ok s → f s = some x →
        (w.db.slot (text key)).live env.now ≠ none → (w.db.slot (text key)).Lasting T

def Event.Survives (env : Env σ) (T : Int) (s : Server σ) : Event → Prop
  | .command (name :: args) => ∀ c, cmdTable (toLower (text name)) = some c →
      Database.Survives (env.atTime s.now) T s.world c args
  | _ => True

theorem edited_key {c : CommandName} {args : List Slice} {key : Slice} {f : Slice → Option Slice}
    (h : edited c args = some (key, f)) : args.take 1 = [key] := by
  unfold edited at h
  split at h
  · simp_all
  · simp_all
  · simp_all
  · obtain ⟨delta, -, hp⟩ := Option.map_eq_some_iff.mp h
    simp_all
  · obtain ⟨delta, -, hp⟩ := Option.map_eq_some_iff.mp h
    simp_all
  · obtain ⟨offset, -, hp⟩ := Option.map_eq_some_iff.mp h
    simp_all
  · simp_all

theorem editName_spec {c : CommandName} (hc : c ∈ editors) :
    cmdTable (toLower (bytes (editName c))) = some c ∧ bytes (editName c) ≠ bytes "del" := by
  simp only [editors, List.mem_cons, List.not_mem_nil, or_false] at hc
  rcases hc with rfl | rfl | rfl | rfl | rfl | rfl <;> exact ⟨rfl, by decide⟩

theorem length_of_validateArity {n : Nat} {line : CmdLine} (h : validateArity n line = true) :
    line.length = n := by
  have hlen : (line.length : Int) = n := by simpa [validateArity] using h
  omega

theorem arity_atTime (c : CommandName) :
    (command (env.atTime T) c).arity = (command env c).arity := by
  cases c <;> rfl

theorem editor_follows {c : CommandName} (hc : c ∈ editors) {args : List Slice} {w v : World σ}
    (harity : validateArity (command env c).arity (cmdLine3 (editName c) args) = true)
    (h : Tracks T w v) (ht : env.now ≤ T)
    (hm : ∀ key f, edited c args = some (key, f) →
      ∀ s x, (w.db.slot (text key)).string env.now = .ok s → f s = some x →
        (w.db.slot (text key)).live env.now ≠ none → (w.db.slot (text key)).Lasting T) :
    Follows env T w v (final ((command env c).executor args) w) := by
  obtain ⟨hname, hdel⟩ := editName_spec hc
  rw [editor_final hc]
  cases he : edited c args with
  | none => exact h.follows rfl
  | some p =>
      obtain ⟨key, f⟩ := p
      have hsub : subjects (cmdLine3 (editName c) args) = [text key] := by
        simp [subjects, cmdLine3, text, hdel, edited_key he]
      rw [← arity_atTime (T := T)] at harity
      refine afterEdit_follows hname hsub harity (fun u => ?_) h ht (hm key f he)
      rw [editor_final hc, he]

theorem execPersist_follows {w v : World σ} (key : Slice) (h : Tracks T w v) (ht : env.now ≤ T)
    (hm : (w.db.slot (text key)).live env.now ≠ none → (w.db.slot (text key)).Lasting T) :
    Follows env T w v (final (execPersist env [key]) w) := by
  rw [execPersist_final]
  dsimp only
  split
  · exact (h.evict ht).follows rfl
  · rename_i hne
    obtain ⟨hlive, -⟩ := not_or.mp hne
    apply persist_follows h hlive (hm hlive) rfl
    intro k
    by_cases hk : k = text key
    · simp [hk, Slot.evict_of_live hlive]
    · simp [hk]

theorem command_follows {c : CommandName} (hc : c ∈ restartable) {name : Slice} {args : List Slice}
    {w v : World σ} (harity : validateArity (command env c).arity (name :: args) = true)
    (h : Tracks T w v) (ht : env.now ≤ T) (hm : Survives env T w c args) :
    Follows env T w v (final ((command env c).executor args) w) := by
  by_cases hedit : c ∈ editors
  · apply editor_follows hedit harity h ht
    simp only [editors, List.mem_cons, List.not_mem_nil, or_false] at hedit
    rcases hedit with rfl | rfl | rfl | rfl | rfl | rfl <;> exact hm
  · simp only [restartable, List.mem_cons, List.not_mem_nil, or_false] at hc
    rcases hc with rfl | rfl | rfl | rfl | rfl | rfl | rfl | rfl | rfl | rfl | rfl | rfl | rfl |
      rfl | rfl
    all_goals try exact absurd (by decide) hedit
    · rcases args with _ | ⟨key, _ | ⟨value, options⟩⟩
      · simp [validateArity, command] at harity
      · simp [validateArity, command] at harity
      · exact execSet_follows key value options h hm
    · rcases args with _ | ⟨key, _ | ⟨value, _ | ⟨more, rest⟩⟩⟩
      · simp [validateArity, command] at harity
      · simp [validateArity, command] at harity
      · exact execGetSet_follows key value h ht
      · have hlen := length_of_validateArity (n := 3) harity
        simp only [List.length_cons] at hlen
        omega
    · exact execDel_follows harity h
    · rcases args with _ | ⟨key, _ | ⟨rawTime, rest⟩⟩
      · simp [validateArity, command] at harity
      · simp [validateArity, command] at harity
      · exact expireCommand_follows _ key rawTime rest h ht hm
    · rcases args with _ | ⟨key, _ | ⟨rawTime, rest⟩⟩
      · simp [validateArity, command] at harity
      · simp [validateArity, command] at harity
      · exact expireCommand_follows _ key rawTime rest h ht hm
    · rcases args with _ | ⟨key, _ | ⟨rawTime, rest⟩⟩
      · simp [validateArity, command] at harity
      · simp [validateArity, command] at harity
      · exact expireCommand_follows _ key rawTime rest h ht hm
    · rcases args with _ | ⟨key, _ | ⟨rawTime, rest⟩⟩
      · simp [validateArity, command] at harity
      · simp [validateArity, command] at harity
      · exact expireCommand_follows _ key rawTime rest h ht hm
    · rcases args with _ | ⟨key, _ | ⟨more, rest⟩⟩
      · simp [validateArity, command] at harity
      · exact execPersist_follows key h ht hm
      · have hlen := length_of_validateArity (n := 2) harity
        simp only [List.length_cons] at hlen
        omega
    · rcases args with _ | ⟨key, options⟩
      · simp [validateArity, command] at harity
      · exact execGetEX_follows key options h ht hm

theorem line_tracks {s : Server σ} {line : CmdLine} (hr : (Event.command line).Restartable)
    (hs : (Event.command line).Survives env T s) (ht : s.now ≤ T) {v : World σ}
    (h : Tracks T s.world v) : Follows env T s.world v (exec (env.atTime s.now) line s.world).2 := by
  cases line with
  | nil =>
      rw [exec_nil]
      exact h.follows rfl
  | cons name args =>
      cases hc : cmdTable (toLower (text name)) with
      | none =>
          rw [exec_unknown hc]
          exact h.follows rfl
      | some c =>
          by_cases harity : validateArity (command (env.atTime s.now) c).arity (name :: args) = true
          · obtain ⟨versionMap, hw⟩ := exec_command (w := s.world) hc harity
            rw [hw]
            exact command_follows (w := s.world.versions versionMap) (hr c hc) harity h ht (hs c hc)
          · rw [exec_badArity hc (Bool.not_eq_true _ ▸ harity)]
            exact h.follows rfl

theorem step_tracks {s : Server σ} {e : Event} (hr : e.Restartable) (hs : e.Survives env T s)
    (ht : s.now ≤ T) (h : Tracks T s.world (loadAof (env.atTime T) s.world.aof .empty)) :
    Tracks T (s.step env e).world (loadAof (env.atTime T) (s.step env e).world.aof .empty) := by
  cases e with
  | pass d => exact h
  | command line =>
      obtain ⟨lines, haof, htracks⟩ := line_tracks hr hs ht h
      have hworld : (s.step env (.command line)).world = (exec (env.atTime s.now) line s.world).2 := rfl
      rw [hworld, haof, loadAof_append]
      exact htracks
  | expire key =>
      rw [Server.step]
      split
      · rename_i he
        rw [DB.isExpired_slot] at he
        intro k
        rw [DB.slot_remove]
        split
        · rename_i hk
          have hgone : (s.world.db.slot key).live s.now = none := by
            exact if_pos he
          have hevict := (h key).evict ht
          rw [Slot.evict_of_not_live (h key).whole hgone] at hevict
          exact hk ▸ hevict
        · exact h k
      · exact h

theorem now_le_step (s : Server σ) (e : Event) : s.now ≤ (s.step env e).now := by
  cases e with
  | pass d => simp [Server.step]
  | command line => exact Int.le_refl _
  | expire key =>
      rw [Server.step]
      split <;> exact Int.le_refl _

/-- What a load tracks is there after it as far as clients can tell. -/
def SeenAlike (env : Env σ) (T : Int) (v w : World σ) : Prop :=
  ∀ key, v.db.live (env.atTime T) key = w.db.live (env.atTime T) key ∧
    (w.db.live (env.atTime T) key ≠ none →
      (v.db.ttlMap.lookup key).map (Int.fdiv · millisecond) =
        (w.db.ttlMap.lookup key).map (Int.fdiv · millisecond))

omit [LinearOrder σ] [Inhabited σ] in
theorem Tracks.seenAlike {w v : World σ} (h : Tracks T w v) : SeenAlike env T v w := by
  intro key
  simp only [DB.live_slot]
  have hlookup (db : DB σ) : db.ttlMap.lookup key = (db.slot key).ttl := rfl
  rw [hlookup, hlookup]
  rcases (h key).eq with ⟨hdata, httl⟩ | ⟨hgone, hgone', -⟩
  · refine ⟨?_, fun _ => ?_⟩
    · rw [Matches.live_of_lasting (T := (env.atTime T).now) (Matches.sameTTL_lasting httl),
        Matches.live_of_lasting (T := (env.atTime T).now) (Matches.sameTTL_symm_lasting httl), hdata]
    · revert httl
      cases (w.db.slot key).ttl <;> cases (v.db.slot key).ttl <;> intro httl
      · rfl
      · exact httl.elim
      · exact httl.elim
      · simp [httl.2.2]
  · exact ⟨hgone'.trans hgone.symm, fun hlive => absurd hgone hlive⟩

theorem Tracks.restores {w : World σ} (h : Tracks T w (loadAof (env.atTime T) w.aof .empty)) :
    Restores env T w :=
  h.seenAlike

/-- A restart at any later time restores the database, if every command finds live up to
then what it reads or keeps. -/
theorem restartsAlike_surviving :
    RestartsAlike env fun T s e => e.Restartable ∧ e.Survives env T s := by
  intro now s T hreach ht
  apply Tracks.restores
  induction hreach with
  | refl => exact fun key => .cleared
  | tail hreach hstep ih =>
      obtain ⟨e, ⟨hr, hs⟩, rfl⟩ := hstep
      have hle := Int.le_trans (now_le_step _ e) ht
      exact step_tracks hr hs hle (ih hle)

/-- At 0 a key is set, expires at the first second, and is persisted. -/
def persistedLines : List CmdLine :=
  [cmdLine3 "set" [some (bytes "k"), some (bytes "v")], makeExpireCmd (bytes "k") second,
    cmdLine3 "persist" [some (bytes "k")]]

theorem reaches_lines {ok : Server σ → Event → Prop} {lines : List CmdLine} {s : Server σ}
    (hok : ∀ line ∈ lines, ∀ s, ok s (.command line)) :
    Reaches env ok s ⟨s.now, loadAof (env.atTime s.now) lines s.world⟩ := by
  induction lines generalizing s with
  | nil => exact .refl
  | cons line lines ih =>
      refine .head ⟨.command line, hok line List.mem_cons_self s, rfl⟩ ?_
      exact ih fun l hl => hok l (List.mem_cons_of_mem _ hl)

theorem persisted_slot (v : World σ) :
    (loadAof (env.atTime T) persistedLines v).db.slot (bytes "k") =
      if second < T then .empty else ⟨some (.str (some (bytes "v"))), none⟩ := by
  have hset : (exec (env.atTime T) (cmdLine3 "set" [some (bytes "k"), some (bytes "v")]) v).2.db.slot
      (bytes "k") = ⟨some (.str (some (bytes "v"))), none⟩ :=
    (exec_set rfl rfl v rfl _).trans (if_pos rfl)
  have hreplayed : replayed second = second := by decide
  simp only [persistedLines, loadAof_cons, loadAof_nil, exec_persist, text, Option.getD_some,
    exec_makeExpireCmd, if_true, hset]
  by_cases hT : second < T
  · simp [Slot.live, Slot.isExpired, hreplayed, hT, Slot.evict]
  · simp [Slot.live, Slot.isExpired, hreplayed, hT]

theorem set_aof (key value : Slice) (w : World σ) :
    (exec env (cmdLine3 "set" [key, value]) w).2.aof = w.aof ++ [cmdLine3 "set" [key, value]] := by
  have hexec : ∃ versionMap, (exec env (cmdLine3 "set" [key, value]) w).2 =
      final (execSet env [key, value]) (w.versions versionMap) := exec_command (c := .set) rfl rfl
  obtain ⟨versionMap, hw⟩ := hexec
  rw [hw, execSet_final]
  rfl

theorem makeExpireCmd_aof {e : Int} {w : World σ} (hlive : (w.db.slot key).live env.now ≠ none) :
    (exec env (makeExpireCmd key e) w).2.aof = w.aof ++ [makeExpireCmd key (replayed e)] := by
  have hexec : ∃ versionMap, (exec env (makeExpireCmd key e) w).2 = final (execPExpireAt env
      [some key, some (formatInt ((unixNano e).tdiv millisecond))]) (w.versions versionMap) :=
    exec_command (c := .pExpireAt) rfl rfl
  obtain ⟨versionMap, hw⟩ := hexec
  rw [hw, execPExpireAt, expireCommand_final]
  simp only [text, Option.getD_some, parseInt_unixNano]
  exact congrArg World.aof (if_neg hlive)

theorem persist_aof {key : Slice} {w : World σ} (hlive : (w.db.slot (text key)).live env.now ≠ none)
    (httl : (w.db.slot (text key)).ttl ≠ none) :
    (exec env (cmdLine3 "persist" [key]) w).2.aof = w.aof ++ [cmdLine3 "persist" [key]] := by
  have hexec : ∃ versionMap, (exec env (cmdLine3 "persist" [key]) w).2 =
      final (execPersist env [key]) (w.versions versionMap) := exec_command (c := .persist) rfl rfl
  obtain ⟨versionMap, hw⟩ := hexec
  rw [hw, execPersist_final, if_neg]
  · rfl
  · simpa [Slot.evict_of_live hlive] using ⟨hlive, httl⟩

theorem persisted_aof : (loadAof (env.atTime 0) persistedLines .empty).aof = persistedLines := by
  let set := cmdLine3 "set" [some (bytes "k"), some (bytes "v")]
  let w := (exec (env.atTime 0) set .empty).2
  have hset : w.db.slot (bytes "k") = ⟨some (.str (some (bytes "v"))), none⟩ :=
    (exec_set rfl rfl .empty rfl _).trans (if_pos rfl)
  have hlive : (w.db.slot (bytes "k")).live 0 ≠ none := by
    simp [hset, Slot.live, Slot.isExpired]
  have hreplayed : replayed second = second := by decide
  have hexpire : (exec (env.atTime 0) (makeExpireCmd (bytes "k") second) w).2.db.slot (bytes "k") =
      ⟨some (.str (some (bytes "v"))), some second⟩ := by
    rw [exec_makeExpireCmd, if_pos rfl, if_neg hlive, hset, hreplayed]
  simp only [persistedLines, loadAof_cons, loadAof_nil]
  rw [persist_aof, makeExpireCmd_aof hlive, set_aof, hreplayed]
  · rfl
  · exact ne_of_eq_of_ne (congrArg (Slot.live · _) hexpire) (by
      simp [Slot.live, Slot.isExpired, Env.atTime, second])
  · exact ne_of_eq_of_ne (congrArg Slot.ttl hexpire) (by simp)

/-- What a load finds expired cannot be persisted any more. -/
theorem not_restartsAlike : ¬ ∀ env : Env ℤ, RestartsAlike env fun _ _ e => e.Restartable := by
  intro h
  let env : Env ℤ := .plain 0
  have hreach : Reaches env (fun _ e => e.Restartable) ⟨0, .empty⟩
      ⟨0, loadAof (env.atTime 0) persistedLines .empty⟩ := by
    refine reaches_lines (s := ⟨0, .empty⟩) fun line hline s => ?_
    simp only [persistedLines, List.mem_cons, List.not_mem_nil, or_false] at hline
    rcases hline with rfl | rfl | rfl <;>
      (rintro c ⟨⟩; decide)
  obtain ⟨hrestored, -⟩ := h env 0 _ (2 * second) hreach (by decide) (bytes "k")
  rw [persisted_aof, DB.live_slot, DB.live_slot, persisted_slot, persisted_slot,
    if_pos (by decide), if_neg (by decide)] at hrestored
  simp [Slot.live, Slot.isExpired, Slot.empty] at hrestored

end Traitor.Database
