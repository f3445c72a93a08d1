import Traitor.Replay
import Traitor.WriteCommands

namespace Traitor.Database

open Lib.Effects Lib.Strconv Protocol

variable {σ : Type} {env : Env σ} {T t : Int} {key k : Bytes}

def Slot.string (s : Slot σ) (t : Int) : Except Reply Slice :=
  match s.live t with
  | none => .ok none
  | some e =>
      match e.asString with
      | none => .error .wrongTypeErr
      | some v => .ok v

theorem wp_getAsString (key : Bytes) (Q : Option (Except Reply Slice) → World σ → Prop)
    (w : World σ) : wp (getAsString env key) Q w =
      Q (some ((w.db.slot key).string env.now)) { w with db := w.db.evict env key } := by
  simp only [getAsString, wp_bind, wp_getAs, DB.view, DB.live_slot, Slot.string]
  cases (w.db.slot key).live env.now with
  | none => rfl
  | some e =>
      dsimp only
      cases e.asString <;> rfl

/-- The keys and new values of the commands that compute a string from the old one. None
is a command that fails before it looks at the key. -/
def edited : CommandName → List Slice → Option (Slice × (Slice → Option Slice))
  | .append, key :: value :: _ => some (key, fun s => some (append s (text value)))
  | .incr, key :: _ => some (key, add 1 (some (bytes "1")))
  | .decr, key :: _ => some (key, add (-1) (some (bytes "-1")))
  | .incrBy, key :: rawDelta :: _ =>
      (parseInt 64 (text rawDelta)).map fun delta => (key, add delta rawDelta)
  | .decrBy, key :: rawDelta :: _ =>
      (parseInt 64 (text rawDelta)).map fun delta =>
        (key, add (-delta) (some (formatInt (wrap64 (-delta)))))
  | .setRange, key :: rawOffset :: value :: _ =>
      (parseInt 64 (text rawOffset)).map fun (offset : Int) => (key, fun s =>
        let s := append s (List.replicate (offset - (text s).length).toNat 0)
        if offset < 0 ∧ text value ≠ [] then none
        else some (if text value = [] then s
          else some (overwrite (text s) offset.toNat (text value))))
  | _, _ => none
where
  add (delta : Int) (initial : Slice) : Slice → Option Slice
    | none => some initial
    | some s => (parseInt 64 s).map fun val => some (formatInt (wrap64 (val + delta)))

def editName : CommandName → String
  | .append => "append"
  | .incr => "incr"
  | .decr => "decr"
  | .incrBy => "incrby"
  | .decrBy => "decrby"
  | _ => "setRange"

def editors : List CommandName := [.append, .incr, .decr, .incrBy, .decrBy, .setRange]

def afterEdit (env : Env σ) (w : World σ) (key : Bytes) (f : Slice → Option Slice) (line : CmdLine) :
    World σ :=
  let db := w.db.evict env key
  match (w.db.slot key).string env.now with
  | .error _ => { w with db := db }
  | .ok s =>
      match f s with
      | none => { w with db := db }
      | some v => ⟨db.put key (.str v), w.aof ++ [line]⟩

theorem addInteger_final (name : String) (args : List Slice) (key : Bytes) (delta : Int)
    (initial : Slice) (first : Int) (w : World σ) :
    final (addInteger env name args key delta initial first) w =
      afterEdit env w key (edited.add delta initial) (cmdLine3 name args) := by
  apply final_eq
  simp only [addInteger, wp_bind, wp_getAsString, afterEdit]
  cases (w.db.slot key).string env.now with
  | error e => rfl
  | ok s =>
      cases s with
      | none => rfl
      | some s =>
          simp only [edited.add]
          cases parseInt 64 s <;> rfl

section

variable [LinearOrder σ] [Inhabited σ]

omit [LinearOrder σ] [Inhabited σ] in
theorem execAppend_final (args : List Slice) (w : World σ) :
    final (execAppend env args) w = match edited .append args with
      | none => w
      | some (key, f) => afterEdit env w (text key) f (cmdLine3 "append" args) := by
  rcases args with _ | ⟨key, _ | ⟨value, rest⟩⟩
  · rfl
  · rfl
  · apply final_eq
    simp only [execAppend, wp_bind, wp_getAsString, edited, afterEdit]
    cases (w.db.slot (text key)).string env.now <;> rfl

omit [LinearOrder σ] [Inhabited σ] in
theorem execSetRange_final (args : List Slice) (w : World σ) :
    final (execSetRange env args) w = match edited .setRange args with
      | none => w
      | some (key, f) => afterEdit env w (text key) f (cmdLine3 "setRange" args) := by
  rcases args with _ | ⟨key, _ | ⟨rawOffset, _ | ⟨value, rest⟩⟩⟩
  · rfl
  · rfl
  · rfl
  · apply final_eq
    simp only [execSetRange, edited]
    cases parseInt 64 (text rawOffset) with
    | none => rfl
    | some offset =>
        simp only [wp_bind, wp_getAsString, Option.map_some, afterEdit]
        cases (w.db.slot (text key)).string env.now with
        | error e => rfl
        | ok s =>
            dsimp only
            split <;> rfl

theorem editor_final {c : CommandName} (hc : c ∈ editors) (args : List Slice) (w : World σ) :
    final ((command env c).executor args) w = match edited c args with
      | none => w
      | some (key, f) => afterEdit env w (text key) f (cmdLine3 (editName c) args) := by
  simp only [editors, List.mem_cons, List.not_mem_nil, or_false] at hc
  rcases hc with rfl | rfl | rfl | rfl | rfl | rfl
  · exact execAppend_final args w
  · rcases args with _ | ⟨key, rest⟩
    · rfl
    · exact addInteger_final _ _ _ _ _ _ w
  · rcases args with _ | ⟨key, rest⟩
    · rfl
    · exact addInteger_final _ _ _ _ _ _ w
  · rcases args with _ | ⟨key, _ | ⟨rawDelta, rest⟩⟩
    · rfl
    · rfl
    · simp only [command, execIncrBy, edited]
      cases parseInt 64 (text rawDelta) with
      | none => rfl
      | some delta => exact addInteger_final _ _ _ _ _ _ w
  · rcases args with _ | ⟨key, _ | ⟨rawDelta, rest⟩⟩
    · rfl
    · rfl
    · simp only [command, execDecrBy, edited]
      cases parseInt 64 (text rawDelta) with
      | none => rfl
      | some delta => exact addInteger_final _ _ _ _ _ _ w
  · exact execSetRange_final args w

omit [LinearOrder σ] [Inhabited σ] in
theorem afterEdit_some {w : World σ} {f : Slice → Option Slice} {line : CmdLine} {s v : Slice}
    (hs : (w.db.slot key).string env.now = .ok s) (hf : f s = some v) :
    afterEdit env w key f line = ⟨(w.db.evict env key).put key (.str v), w.aof ++ [line]⟩ := by
  simp only [afterEdit, hs, hf]

/-- A step that hands on one line. -/
theorem Tracks.line {w v w' : World σ} {line : CmdLine} (h : Tracks T w v)
    (haof : w'.aof = w.aof ++ [line]) (hsub : subjects line = [key])
    (hslot : ∀ k, k ≠ key → w'.db.slot k = w.db.slot k)
    (hslot' : ∀ k, k ≠ key → (exec (env.atTime T) line v).2.db.slot k = v.db.slot k)
    (hkey : Matches T (line.head? = some (some (bytes "PEXPIREAT"))) (w'.db.slot key)
      ((exec (env.atTime T) line v).2.db.slot key)) : Follows env T w v w' := by
  refine ⟨[line], haof, h.one haof (by simpa using hsub) hslot hslot' ?_⟩
  rw [haof, lingering_append, hsub, if_pos (List.mem_singleton.mpr rfl), decide_eq_true_eq]
  exact hkey

theorem afterEdit_follows {w v : World σ} {f : Slice → Option Slice} {name : String}
    {args : List Slice} {c : CommandName} (hname : cmdTable (toLower (bytes name)) = some c)
    (hsub : subjects (cmdLine3 name args) = [key])
    (harity : validateArity (command (env.atTime T) c).arity (cmdLine3 name args) = true)
    (hexec : ∀ v : World σ, final ((command (env.atTime T) c).executor args) v =
      afterEdit (env.atTime T) v key f (cmdLine3 name args))
    (h : Tracks T w v) (ht : env.now ≤ T)
    (hm : ∀ s x, (w.db.slot key).string env.now = .ok s → f s = some x →
      (w.db.slot key).live env.now ≠ none → (w.db.slot key).Lasting T) :
    Follows env T w v (afterEdit env w key f (cmdLine3 name args)) := by
  rw [afterEdit]
  split
  · exact (h.evict ht).follows rfl
  · rename_i s hs
    split
    · exact (h.evict ht).follows rfl
    · rename_i x hx
      have hreplay : ∃ versionMap, (exec (env.atTime T) (cmdLine3 name args) v).2 =
          final ((command (env.atTime T) c).executor args) (v.versions versionMap) :=
        exec_command hname harity
      obtain ⟨versionMap, hv⟩ := hreplay
      rw [hexec] at hv
      have hkey := h key
      obtain ⟨hs', hslots⟩ : (v.db.slot key).string T = .ok s ∧
          ∀ (lingers : Prop) (d : Entity σ), Matches T lingers
            ⟨some d, ((w.db.slot key).evict env.now).ttl⟩ ⟨some d, ((v.db.slot key).evict T).ttl⟩ := by
        by_cases hlive : (w.db.slot key).live env.now = none
        · have hgone := hkey.gone ht hlive
          rw [Slot.string, hlive] at hs
          refine ⟨by rw [Slot.string, hgone]; exact hs, fun _ d => ?_⟩
          rw [Slot.evict_of_not_live hkey.whole hlive, Slot.evict_of_not_live hkey.whole' hgone]
          exact .written d
        · have hdata : (w.db.slot key).data ≠ none := by
            obtain ⟨e, he⟩ := Option.ne_none_iff_exists'.mp hlive
            simp [Slot.live_data he]
          have hlast := hm s x hs hx hlive
          obtain ⟨hsame, -, hlive'⟩ := hkey.same hdata hlast
          have hnow : (w.db.slot key).live env.now = (w.db.slot key).data := by
            obtain ⟨e, he⟩ := Option.ne_none_iff_exists'.mp hlive
            rw [he, Slot.live_data he]
          refine ⟨?_, fun _ d => ?_⟩
          · rw [Slot.string, hlive', ← hsame, ← hnow]
            exact hs
          · rw [Slot.evict_of_live hlive, Slot.evict_of_live (by rw [hlive', ← hsame]; exact hdata)]
            exact hkey.replace hdata hlast
      rw [afterEdit_some (s := s) hs' hx] at hv
      refine h.line rfl hsub (fun k hk => by simp [hk])
        (fun k hk => ?_) ?_
      · exact (congrArg (fun u : World σ => u.db.slot k) hv).trans (by simp [hk])
      · have hslot : (exec (env.atTime T) (cmdLine3 name args) v).2.db.slot key =
            ⟨some (.str x), ((v.db.slot key).evict T).ttl⟩ :=
          (congrArg (fun u : World σ => u.db.slot key) hv).trans (by simp [Env.atTime])
        rw [hslot]
        simpa using hslots _ (.str x)

omit [LinearOrder σ] [Inhabited σ] in
theorem expireCommand_final (instant : Int → Int) (key rawTime : Slice) (rest : List Slice)
    (w : World σ) :
    final (expireCommand env instant (key :: rawTime :: rest)) w =
      match parseInt 64 (text rawTime) with
      | none => w
      | some n =>
          let db := w.db.evict env (text key)
          if (w.db.slot (text key)).live env.now = none then { w with db := db }
          else ⟨db.expire (text key) (instant n), w.aof ++ [makeExpireCmd (text key) (instant n)]⟩ := by
  apply final_eq
  simp only [expireCommand]
  cases parseInt 64 (text rawTime) with
  | none => rfl
  | some n =>
      simp only [wp_bind, wp_getEntity, DB.live_slot]
      cases (w.db.slot (text key)).live env.now <;> rfl

theorem parseInt_unixNano (e : Int) :
    parseInt 64 (formatInt ((unixNano e).tdiv millisecond)) = some ((unixNano e).tdiv millisecond) := by
  have hlo : -2 ^ 63 ≤ wrap64 e := by
    have := Int.le_bmod (x := e) (m := 2 ^ 64) (by decide)
    rw [wrap64]
    omega
  have hhi : wrap64 e < 2 ^ 63 := by
    have := Int.bmod_lt (x := e) (m := 2 ^ 64) (by decide)
    rw [wrap64]
    omega
  rw [unixNano, millisecond]
  rcases Int.le_total 0 (wrap64 e) with hpos | hneg
  · rw [Int.tdiv_eq_ediv_of_nonneg hpos]
    exact parseInt_formatInt (by omega) (by omega)
  · have hdiv : (wrap64 e).tdiv 1000000 = -((-wrap64 e) / 1000000) := by
      rw [← Int.tdiv_eq_ediv_of_nonneg (by omega), Int.neg_tdiv, Int.neg_neg]
    rw [hdiv]
    exact parseInt_formatInt (by omega) (by omega)

/-- A log at a later time sets the expiration again, if the key is still live then. -/
theorem exec_makeExpireCmd (e : Int) (v : World σ) (k : Bytes) :
    (exec (env.atTime T) (makeExpireCmd key e) v).2.db.slot k =
      if k = key then
        if (v.db.slot key).live T = none then (v.db.slot key).evict T
        else ⟨(v.db.slot key).data, some (replayed e)⟩
      else v.db.slot k := by
  have hreplay : ∃ versionMap, (exec (env.atTime T) (makeExpireCmd key e) v).2 =
      final (execPExpireAt (env.atTime T)
        [some key, some (formatInt ((unixNano e).tdiv millisecond))]) (v.versions versionMap) :=
    exec_command (c := .pExpireAt) rfl rfl
  obtain ⟨versionMap, hv⟩ := hreplay
  rw [hv, execPExpireAt, expireCommand_final]
  simp only [text, Option.getD_some, parseInt_unixNano]
  by_cases hlive : (v.db.slot key).live T = none
  · simp [hlive, Env.atTime]
  · by_cases hk : k = key
    · simp [hk, hlive, Env.atTime, Slot.evict_of_live hlive, replayed]
    · simp [hk, hlive, Env.atTime]

theorem expire_follows {w v : World σ} {e : Int} (h : Tracks T w v)
    (hlive : (w.db.slot key).live env.now ≠ none) (hdated : Dated T e)
    (hlast : (w.db.slot key).Lasting T ∨ e < T) {w' : World σ}
    (haof : w'.aof = w.aof ++ [makeExpireCmd key e])
    (hslot : ∀ k, w'.db.slot k = if k = key then ⟨(w.db.slot key).data, some e⟩ else w.db.slot k) :
    Follows env T w v w' := by
  have hkey := h key
  have hdata : (w.db.slot key).data ≠ none := by
    obtain ⟨d, hd⟩ := Option.ne_none_iff_exists'.mp hlive
    simp [Slot.live_data hd]
  have hsub : subjects (makeExpireCmd key e) = [key] := rfl
  refine h.line haof hsub (fun k hk => by simp [hslot, hk])
    (fun k hk => by rw [exec_makeExpireCmd, if_neg hk]) ?_
  rw [hslot, if_pos rfl, exec_makeExpireCmd, if_pos rfl]
  have hlingers : (makeExpireCmd key e).head? = some (some (bytes "PEXPIREAT")) := rfl
  have hmatch := hkey.expire hdata hdated hlast hlingers
  by_cases hgone : (v.db.slot key).live T = none
  · rw [if_pos hgone] at hmatch ⊢
    rwa [Slot.evict_of_not_live hkey.whole' hgone]
  · rwa [if_neg hgone] at hmatch ⊢

theorem expireCommand_follows {w v : World σ} (instant : Int → Int) (key rawTime : Slice)
    (rest : List Slice) (h : Tracks T w v) (ht : env.now ≤ T)
    (hm : ∀ n, parseInt 64 (text rawTime) = some n → (w.db.slot (text key)).live env.now ≠ none →
      Dated T (instant n) ∧ ((w.db.slot (text key)).Lasting T ∨ instant n < T)) :
    Follows env T w v (final (expireCommand env instant (key :: rawTime :: rest)) w) := by
  rw [expireCommand_final]
  cases hn : parseInt 64 (text rawTime) with
  | none => exact h.follows rfl
  | some n =>
      dsimp only
      split
      · exact (h.evict ht).follows rfl
      · rename_i hlive
        obtain ⟨hdated, hlast⟩ := hm n hn hlive
        apply expire_follows h hlive hdated hlast rfl
        intro k
        by_cases hk : k = text key
        · simp [hk, Slot.evict_of_live hlive]
        · simp [hk]

omit [LinearOrder σ] [Inhabited σ] in
theorem execPersist_final (key : Slice) (rest : List Slice) (w : World σ) :
    final (execPersist env (key :: rest)) w =
      let db := w.db.evict env (text key)
      if (w.db.slot (text key)).live env.now = none ∨ (db.slot (text key)).ttl = none
      then { w with db := db }
      else ⟨db.persist (text key), w.aof ++ [cmdLine3 "persist" (key :: rest)]⟩ := by
  apply final_eq
  simp only [execPersist, wp_bind, wp_getEntity, DB.live_slot]
  cases (w.db.slot (text key)).live env.now with
  | none => rfl
  | some e =>
      simp only [getTTL, wp_bind, wp_get, wp_pure, reduceCtorEq, false_or]
      have httl : (w.db.evict env (text key)).ttlMap.lookup (text key) =
          ((w.db.evict env (text key)).slot (text key)).ttl := rfl
      rw [httl]
      cases ((w.db.evict env (text key)).slot (text key)).ttl <;> rfl

theorem exec_persist (key : Slice) (v : World σ) (k : Bytes) :
    (exec (env.atTime T) (cmdLine3 "persist" [key]) v).2.db.slot k =
      if k = text key then
        if (v.db.slot (text key)).live T = none then (v.db.slot (text key)).evict T
        else ⟨(v.db.slot (text key)).data, none⟩
      else v.db.slot k := by
  have hreplay : ∃ versionMap, (exec (env.atTime T) (cmdLine3 "persist" [key]) v).2 =
      final (execPersist (env.atTime T) [key]) (v.versions versionMap) :=
    exec_command (c := .persist) rfl rfl
  obtain ⟨versionMap, hv⟩ := hreplay
  rw [hv, execPersist_final]
  have hnow : (env.atTime T).now = T := rfl
  by_cases hk : k = text key
  · by_cases hlive : (v.db.slot (text key)).live T = none
    · simp [hk, hlive, hnow]
    · cases httl : (v.db.slot (text key)).ttl with
      | none =>
          have hslot : v.db.slot (text key) = ⟨(v.db.slot (text key)).data, none⟩ := by
            rw [← httl]
          simp [hk, hlive, hnow, Slot.evict_of_live hlive, httl, ← hslot]
      | some e => simp [hk, hlive, hnow, Slot.evict_of_live hlive, httl]
  · dsimp only
    split <;> simp [hk]

theorem persist_follows {w v : World σ} {key : Slice} (h : Tracks T w v)
    (hlive : (w.db.slot (text key)).live env.now ≠ none)
    (hlast : (w.db.slot (text key)).Lasting T) {w' : World σ}
    (haof : w'.aof = w.aof ++ [cmdLine3 "persist" [key]])
    (hslot : ∀ k, w'.db.slot k =
      if k = text key then ⟨(w.db.slot (text key)).data, none⟩ else w.db.slot k) :
    Follows env T w v w' := by
  have hkey := h (text key)
  have hdata : (w.db.slot (text key)).data ≠ none := by
    obtain ⟨d, hd⟩ := Option.ne_none_iff_exists'.mp hlive
    simp [Slot.live_data hd]
  have hsub : subjects (cmdLine3 "persist" [key]) = [text key] := rfl
  refine h.line haof hsub (fun k hk => by simp [hslot, hk])
    (fun k hk => by rw [exec_persist, if_neg hk]) ?_
  obtain ⟨hsame, -, hlive'⟩ := hkey.same hdata hlast
  rw [hslot, if_pos rfl, exec_persist, if_pos rfl, if_neg (by rw [hlive', ← hsame]; exact hdata)]
  exact hkey.persist hdata hlast

/-- Whether the key may be written, by whether there is a value under it, expired or not. -/
def Policy.allows : Policy → Bool → Bool
  | .upsert, _ => true
  | .insert, there => ¬ there
  | .update, there => there

omit [LinearOrder σ] [Inhabited σ] in
theorem wp_putByPolicy (policy : Policy) (key : Bytes) (entity : Entity σ)
    (Q : Option Int → World σ → Prop) (w : World σ) :
    wp (putByPolicy policy key entity) Q w =
      if policy.allows (w.db.slot key).data.isSome then Q (some 1) { w with db := w.db.put key entity }
      else Q (some 0) w := by
  have hdata : (w.db.slot key).data = w.db.data.lookup key := rfl
  cases policy with
  | upsert => rfl
  | insert =>
      simp only [putByPolicy, putIfAbsent, has, putEntity, wp_bind, wp_get, wp_pure, wp_ite,
        wp_modifyDB, Policy.allows, hdata]
      cases w.db.data.lookup key <;> rfl
  | update =>
      simp only [putByPolicy, putIfExists, has, putEntity, wp_bind, wp_get, wp_pure, wp_ite,
        wp_modifyDB, Policy.allows, hdata]

omit [LinearOrder σ] [Inhabited σ] in
theorem execSet_final (key value : Slice) (options : List Slice) (w : World σ) :
    final (execSet env (key :: value :: options)) w =
      match setOptions .upsert unlimitedTTL options with
      | .error _ => w
      | .ok (policy, ttl) =>
          if policy.allows (w.db.slot (text key)).data.isSome then
            let db := w.db.put (text key) (.str value)
            if ttl ≠ unlimitedTTL then
              ⟨db.expire (text key) (after env ttl), w.aof ++ [cmdLine3 "SET" [key, value],
                makeExpireCmd (text key) (after env ttl)]⟩
            else ⟨db.persist (text key), w.aof ++ [cmdLine3 "set" (key :: value :: options)]⟩
          else w := by
  apply final_eq
  simp only [execSet]
  cases setOptions .upsert unlimitedTTL options with
  | error e => rfl
  | ok p =>
      simp only [wp_bind, wp_putByPolicy]
      split
      · rw [if_pos (by decide), wp_ite]
        split
        · simp [expire]
        · simp [persist]
      · rfl

/-- The line of a `SET` without a time to live. -/
theorem exec_set {name : String} (hname : cmdTable (toLower (bytes name)) = some .set)
    {key value : Slice} {options : List Slice} {policy : Policy}
    (ho : setOptions .upsert unlimitedTTL options = .ok (policy, unlimitedTTL)) (v : World σ)
    (hallows : policy.allows (v.db.slot (text key)).data.isSome = true) (k : Bytes) :
    (exec (env.atTime T) (cmdLine3 name (key :: value :: options)) v).2.db.slot k =
      if k = text key then ⟨some (.str value), none⟩ else v.db.slot k := by
  have harity : validateArity (command (env.atTime T) .set).arity
      (cmdLine3 name (key :: value :: options)) = true := by
    simp [validateArity, command, cmdLine3]
    omega
  have hreplay : ∃ versionMap, (exec (env.atTime T) (cmdLine3 name (key :: value :: options)) v).2 =
      final (execSet (env.atTime T) (key :: value :: options)) (v.versions versionMap) :=
    exec_command (c := .set) hname harity
  obtain ⟨versionMap, hv⟩ := hreplay
  rw [hv, execSet_final, ho]
  by_cases hk : k = text key
  · simp [hallows, hk]
  · simp [hallows, hk]

/-- The key holds the new value and no time to live, now and after a load. -/
theorem write_follows {w v : World σ} {name : String}
    (hname : cmdTable (toLower (bytes name)) = some .set) (hdel : bytes name ≠ bytes "del")
    {key value : Slice} {options : List Slice} {policy : Policy} (h : Tracks T w v)
    (ho : setOptions .upsert unlimitedTTL options = .ok (policy, unlimitedTTL))
    (hallows : policy.allows (v.db.slot (text key)).data.isSome = true) {w' : World σ}
    (haof : w'.aof = w.aof ++ [cmdLine3 name (key :: value :: options)])
    (hslot : ∀ k, w'.db.slot k = if k = text key then ⟨some (.str value), none⟩ else w.db.slot k) :
    Follows env T w v w' := by
  have hsub : subjects (cmdLine3 name (key :: value :: options)) = [text key] := by
    simp [subjects, cmdLine3, text, hdel]
  refine h.line haof hsub (fun k hk => by simp [hslot, hk])
    (fun k hk => by rw [exec_set hname ho v hallows, if_neg hk]) ?_
  rw [hslot, if_pos rfl, exec_set hname ho v hallows, if_pos rfl]
  exact .written _

theorem Follows.trans {w v w' w'' : World σ} (h : Follows env T w v w')
    (h' : ∀ v', Tracks T w' v' → Follows env T w' v' w'') : Follows env T w v w'' := by
  obtain ⟨lines, haof, htracks⟩ := h
  obtain ⟨lines', haof', htracks'⟩ := h' _ htracks
  refine ⟨lines ++ lines', by rw [haof', haof, List.append_assoc], ?_⟩
  rwa [loadAof_append]

/-- What a load needs of a `SET` with a condition. -/
def Policy.Replays (policy : Policy) (T : Int) (lingers : Bool) (s : Slot σ) : Prop :=
  match policy with
  | .upsert => True
  | .insert => lingers = false
  | .update => s.Lasting T

omit [LinearOrder σ] [Inhabited σ] in
theorem Policy.Replays.allows {policy : Policy} {lingers : Bool} {s s' : Slot σ}
    (h : policy.Replays T lingers s) (hm : Matches T (lingers = true) s s')
    (hs : policy.allows s.data.isSome = true) : policy.allows s'.data.isSome = true := by
  cases policy with
  | upsert => rfl
  | insert =>
      have hnone : s.data = none := by simpa [Policy.allows] using hs
      have hnone' : s'.data = none := by
        rcases hm.eq with ⟨hdata, -⟩ | ⟨-, -, hl⟩
        · exact hdata ▸ hnone
        · by_contra hne
          have hlingers := hl hne
          rw [h] at hlingers
          simp at hlingers
      simp [Policy.allows, hnone']
  | update =>
      have hsome : s.data ≠ none := by
        rw [Policy.allows, Option.isSome_iff_ne_none] at hs
        exact hs
      obtain ⟨hdata, -⟩ := hm.same hsome h
      rw [Policy.allows, ← hdata]
      exact hs

theorem execSet_follows {w v : World σ} (key value : Slice) (options : List Slice)
    (h : Tracks T w v)
    (hm : ∀ policy ttl, setOptions .upsert unlimitedTTL options = .ok (policy, ttl) →
      policy.allows (w.db.slot (text key)).data.isSome = true →
        if ttl ≠ unlimitedTTL then Dated T (after env ttl)
        else policy.Replays T (lingering (text key) w.aof) (w.db.slot (text key))) :
    Follows env T w v (final (execSet env (key :: value :: options)) w) := by
  rw [execSet_final]
  cases ho : setOptions .upsert unlimitedTTL options with
  | error e => exact h.follows rfl
  | ok p =>
      obtain ⟨policy, ttl⟩ := p
      dsimp only
      split
      · rename_i hallows
        have hneeds := hm policy ttl ho hallows
        split
        · rename_i httl
          rw [if_pos httl] at hneeds
          let set : World σ := ⟨(w.db.put (text key) (.str value)).persist (text key),
            w.aof ++ [cmdLine3 "SET" [key, value]]⟩
          have hset : Follows env T w v set :=
            write_follows rfl (by decide) h rfl rfl rfl fun k => by
              by_cases hk : k = text key <;> simp [set, hk]
          apply hset.trans
          intro v' h'
          have hslot : set.db.slot (text key) = ⟨some (.str value), none⟩ := by simp [set]
          have haof : w.aof ++ [cmdLine3 "SET" [key, value], makeExpireCmd (text key)
              (after env ttl)] = set.aof ++ [makeExpireCmd (text key) (after env ttl)] := by
            simp [set]
          refine expire_follows h' ?_ hneeds (.inl ?_) haof fun k => ?_
          · simp [hslot, Slot.live, Slot.isExpired]
          · rw [hslot]
            rintro e ⟨⟩
          · by_cases hk : k = text key <;> simp [set, hk]
        · rename_i httl
          rw [if_neg httl] at hneeds
          have hzero : ttl = unlimitedTTL := not_not.mp httl
          subst hzero
          apply write_follows rfl (by decide) h ho (hneeds.allows (h (text key)) hallows) rfl
          intro k
          by_cases hk : k = text key <;> simp [hk]
      · exact h.follows rfl

omit [LinearOrder σ] [Inhabited σ] in
theorem execGetSet_final (key value : Slice) (rest : List Slice) (w : World σ) :
    final (execGetSet env (key :: value :: rest)) w =
      let db := w.db.evict env (text key)
      match (w.db.slot (text key)).string env.now with
      | .error _ => { w with db := db }
      | .ok _ => ⟨(db.put (text key) (.str value)).persist (text key),
          w.aof ++ [cmdLine3 "set" (key :: value :: rest)]⟩ := by
  apply final_eq
  simp only [execGetSet, wp_bind, wp_getAsString]
  cases (w.db.slot (text key)).string env.now with
  | error e => rfl
  | ok old => cases old <;> rfl

theorem execGetSet_follows {w v : World σ} (key value : Slice) (h : Tracks T w v)
    (ht : env.now ≤ T) : Follows env T w v (final (execGetSet env [key, value]) w) := by
  rw [execGetSet_final]
  dsimp only
  split
  · exact (h.evict ht).follows rfl
  · apply write_follows rfl (by decide) h rfl rfl rfl
    intro k
    by_cases hk : k = text key <;> simp [hk]

def getExParse (ttl : Int) : List Slice → Bool × Except Reply Int
  | [] => (false, .ok ttl)
  | arg :: rest =>
      let name := toUpper (text arg)
      if name = bytes "EX" then
        match rest with
        | [] => (false, .error .syntaxErr)
        | n :: rest =>
            match ttlArg "getex" ttl n with
            | .error e => (false, .error e)
            | .ok n => getExParse (wrap64 (n * 1000)) rest
      else if name = bytes "PX" then
        match rest with
        | [] => (false, .error .syntaxErr)
        | n :: rest =>
            match ttlArg "getex" ttl n with
            | .error e => (false, .error e)
            | .ok n => getExParse n rest
      else if name = bytes "PERSIST" then
        if ttl ≠ unlimitedTTL then (false, .error .syntaxErr)
        else (true, (getExParse ttl rest).2)
      else getExParse ttl rest

omit [LinearOrder σ] [Inhabited σ] in
theorem DB.persist_persist (db : DB σ) (key : Bytes) :
    (db.persist key).persist key = db.persist key := by
  have herase : (db.ttlMap.erase key).erase key = db.ttlMap.erase key :=
    Lib.FiniteMaps.erase_absent (Finmap.lookup_erase key _)
  simp [persist, herase]

omit [LinearOrder σ] [Inhabited σ] in
theorem wp_getExOptions (key : Bytes) (ttl : Int) (options : List Slice)
    (Q : Option (Except Reply Int) → World σ → Prop) (w : World σ) :
    wp (getExOptions key ttl options) Q w = Q (some (getExParse ttl options).2)
      (if (getExParse ttl options).1 then { w with db := w.db.persist key } else w) := by
  fun_induction getExParse ttl options generalizing w with
  | case1 => rfl
  | case2 ttl arg name h =>
      have hname : toUpper (text arg) = bytes "EX" := h
      simp [getExOptions, hname]
  | case3 ttl arg name h n rest e he =>
      have hname : toUpper (text arg) = bytes "EX" := h
      simp [getExOptions, hname, he]
  | case4 ttl arg name h n rest m hm ih =>
      have hname : toUpper (text arg) = bytes "EX" := h
      simp [getExOptions, hname, hm, ih]
  | case5 ttl arg name hex h =>
      have hname : toUpper (text arg) = bytes "PX" := h
      have hne : bytes "PX" ≠ bytes "EX" := by decide
      simp [getExOptions, hname, hne]
  | case6 ttl arg name hex h n rest e he =>
      have hname : toUpper (text arg) = bytes "PX" := h
      have hne : bytes "PX" ≠ bytes "EX" := by decide
      simp [getExOptions, hname, hne, he]
  | case7 ttl arg name hex h n rest m hm ih =>
      have hname : toUpper (text arg) = bytes "PX" := h
      have hne : bytes "PX" ≠ bytes "EX" := by decide
      simp [getExOptions, hname, hne, hm, ih]
  | case8 ttl arg rest name hex hpx h httl =>
      have hname : toUpper (text arg) = bytes "PERSIST" := h
      have hne : bytes "PERSIST" ≠ bytes "EX" ∧ bytes "PERSIST" ≠ bytes "PX" := by decide
      rw [getExOptions.eq_def]
      simp [hname, hne, httl]
  | case9 ttl arg rest name hex hpx h httl ih =>
      have hname : toUpper (text arg) = bytes "PERSIST" := h
      have hne : bytes "PERSIST" ≠ bytes "EX" ∧ bytes "PERSIST" ≠ bytes "PX" := by decide
      rw [getExOptions.eq_def]
      simp only [hname, hne.1, hne.2, if_false, if_true, httl, wp_bind, persist, wp_modifyDB, ih,
        DB.persist_persist, ite_self]
  | case10 ttl arg rest name hex hpx hpersist ih =>
      have hname : ¬ toUpper (text arg) = bytes "EX" := hex
      have hname' : ¬ toUpper (text arg) = bytes "PX" := hpx
      have hname'' : ¬ toUpper (text arg) = bytes "PERSIST" := hpersist
      rw [getExOptions.eq_def]
      simp [hname, hname', hname'', ih]

omit [LinearOrder σ] [Inhabited σ] in
theorem execGetEX_final (key : Slice) (options : List Slice) (w : World σ) :
    final (execGetEX env (key :: options)) w =
      let db := w.db.evict env (text key)
      match (w.db.slot (text key)).string env.now with
      | .error _ | .ok none => { w with db := db }
      | .ok (some _) =>
          let db := if (getExParse unlimitedTTL options).1 then db.persist (text key) else db
          match (getExParse unlimitedTTL options).2 with
          | .error _ => { w with db := db }
          | .ok ttl =>
              if options = [] then { w with db := db }
              else if ttl ≠ unlimitedTTL then
                ⟨db.expire (text key) (after env ttl),
                  w.aof ++ [makeExpireCmd (text key) (after env ttl)]⟩
              else ⟨db.persist (text key), w.aof ++ [cmdLine3 "persist" [key]]⟩ := by
  apply final_eq
  simp only [execGetEX, wp_bind, wp_getAsString]
  cases (w.db.slot (text key)).string env.now with
  | error e => rfl
  | ok o =>
      cases o with
      | none => rfl
      | some s =>
          simp only [wp_bind, wp_getExOptions]
          cases (getExParse unlimitedTTL options).1 with
          | true =>
              cases (getExParse unlimitedTTL options).2 with
              | error e => rfl
              | ok ttl => simp only [if_true]; split <;> [rfl; (split <;> rfl)]
          | false =>
              cases (getExParse unlimitedTTL options).2 with
              | error e => rfl
              | ok ttl => simp only [Bool.false_eq_true, if_false]; split <;> [rfl; (split <;> rfl)]

omit [LinearOrder σ] [Inhabited σ] in
/-- A value that is there, and so live. -/
theorem live_of_string {s : Slot σ} {x : Bytes} (h : s.string t = .ok (some x)) :
    s.live t ≠ none := by
  intro hn
  rw [Slot.string, hn] at h
  simp at h

theorem execGetEX_follows {w v : World σ} (key : Slice) (options : List Slice) (h : Tracks T w v)
    (ht : env.now ≤ T)
    (hm : ∀ x, (w.db.slot (text key)).string env.now = .ok (some x) →
      match (getExParse unlimitedTTL options).2 with
      | .error _ => (getExParse unlimitedTTL options).1 = true → (w.db.slot (text key)).ttl = none
      | .ok ttl => options = [] ∨
          if ttl ≠ unlimitedTTL then Dated T (after env ttl) ∧
            ((w.db.slot (text key)).Lasting T ∨ after env ttl < T)
          else (w.db.slot (text key)).Lasting T) :
    Follows env T w v (final (execGetEX env (key :: options)) w) := by
  rw [execGetEX_final]
  dsimp only
  split
  · exact (h.evict ht).follows rfl
  · exact (h.evict ht).follows rfl
  · rename_i x hx
    have hlive := live_of_string hx
    have hneeds := hm x hx
    have hevict : (w.db.slot (text key)).evict env.now = w.db.slot (text key) :=
      Slot.evict_of_live hlive
    split
    · rename_i e he
      rw [he] at hneeds
      refine Tracks.follows (fun k => ?_) rfl
      have hsame : (if (getExParse unlimitedTTL options).1 = true
          then (w.db.evict env (text key)).persist (text key)
          else w.db.evict env (text key)).slot k = w.db.slot k := by
        by_cases hk : k = text key
        · subst hk
          split
          · rename_i hpersist
            have hnone := hneeds hpersist
            simp [hevict, ← hnone]
          · simp [hevict]
        · split <;> simp [hk]
      rw [hsame]
      exact h k
    · rename_i ttl httl
      rw [httl] at hneeds
      split
      · rename_i hnil
        subst hnil
        refine Tracks.follows (fun k => ?_) rfl
        have hsame : (w.db.evict env (text key)).slot k = w.db.slot k := by
          by_cases hk : k = text key
          · subst hk
            simp [hevict]
          · simp [hk]
        simp only [getExParse, Bool.false_eq_true, if_false, hsame]
        exact h k
      · rename_i hne
        have hneeds := hneeds.resolve_left hne
        split
        · rename_i hunlimited
          rw [if_pos hunlimited] at hneeds
          apply expire_follows h hlive hneeds.1 hneeds.2 rfl
          intro k
          by_cases hk : k = text key
          · split <;> simp [hk, hevict]
          · split <;> simp [hk]
        · rename_i hunlimited
          rw [if_neg hunlimited] at hneeds
          apply persist_follows h hlive hneeds rfl
          intro k
          by_cases hk : k = text key
          · split <;> simp [hk, hevict]
          · split <;> simp [hk]

omit [LinearOrder σ] [Inhabited σ] in
theorem removes_slot {keys : List Bytes} {w : World σ} (hwhole : ∀ k, (w.db.slot k).Whole) (k : Bytes) :
    (final (removes keys) w).db.slot k = if k ∈ keys then .empty else w.db.slot k := by
  apply (wp_iff (removes keys) (fun _ w' => w'.db.slot k = _) w).mp
  induction keys generalizing w with
  | nil => simp [removes]
  | cons key keys ih =>
      have hdata : (w.db.slot key).data = w.db.data.lookup key := rfl
      simp only [removes, has, wp_bind, wp_get, wp_pure, wp_ite]
      split
      · simp only [remove, wp_modifyDB]
        have hwhole' : ∀ k, ((w.db.remove key).slot k).Whole := by
          intro k
          rw [DB.slot_remove]
          split
          · exact fun _ => rfl
          · exact hwhole k
        apply wp_mono (ih hwhole')
        intro r w' h
        cases r <;> (simp only; rw [h]; by_cases hk : k = key <;> simp [hk])
      · rename_i hnone
        apply wp_mono (ih hwhole)
        intro r w' h
        rw [h]
        by_cases hk : k = key
        · subst hk
          have hempty : w.db.slot k = .empty := by
            have hn : (w.db.slot k).data = none := by simpa [hdata] using hnone
            have httl := hwhole k hn
            cases hs : w.db.slot k
            simp_all [Slot.empty]
          simp [hempty]
        · simp [hk]

omit [LinearOrder σ] [Inhabited σ] in
theorem execDel_final (args : List Slice) (w : World σ) :
    (final (execDel args) w).db = (final (removes (args.map text)) w).db ∧
      (final (execDel args) w = w ∨ (final (execDel args) w).aof = w.aof ++ [cmdLine3 "del" args]) := by
  obtain ⟨n, hn, hpos, hzero, haof⟩ := (wp_iff _ _ _).mp (wp_removes (args.map text) w)
  refine (wp_iff _ (fun _ w' => w'.db = (final (removes (args.map text)) w).db ∧
    (w' = w ∨ w'.aof = w.aof ++ [cmdLine3 "del" args])) w).mp ?_
  rw [execDel, wp_bind, wp_iff, hn]
  by_cases h : 0 < n
  · simp [h, haof]
  · simp [h, hzero (by omega)]

theorem exec_del {args : List Slice} (harity : validateArity (-2) (cmdLine3 "del" args) = true)
    {v : World σ} (hwhole : ∀ k, (v.db.slot k).Whole) (k : Bytes) :
    (exec (env.atTime T) (cmdLine3 "del" args) v).2.db.slot k =
      if k ∈ args.map text then .empty else v.db.slot k := by
  have hreplay : ∃ versionMap, (exec (env.atTime T) (cmdLine3 "del" args) v).2 =
      final (execDel args) (v.versions versionMap) := exec_command (c := .del) rfl harity
  obtain ⟨versionMap, hv⟩ := hreplay
  rw [hv, (execDel_final args (v.versions versionMap)).1,
    removes_slot (w := v.versions versionMap) hwhole]
  rfl

theorem execDel_follows {w v : World σ} {args : List Slice}
    (harity : validateArity (-2) (cmdLine3 "del" args) = true) (h : Tracks T w v) :
    Follows env T w v (final (execDel args) w) := by
  obtain ⟨hdb, he | haof⟩ := execDel_final args w
  · rw [he]
    exact h.follows rfl
  · refine ⟨[cmdLine3 "del" args], haof, fun k => ?_⟩
    have hsub : subjects (cmdLine3 "del" args) = args.map text := by
      simp [subjects, cmdLine3, text]
    rw [haof, lingering_append, hsub, loadAof_cons, loadAof_nil,
      exec_del harity fun k => (h k).whole', hdb, removes_slot fun k => (h k).whole]
    split
    · exact .cleared
    · exact h k

end

end Traitor.Database
