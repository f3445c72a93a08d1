import Traitor.Recovery

namespace Traitor.Database

open Lib.Effects Lib.Strconv Protocol

variable {σ : Type} {env : Env σ} {ch : Choices} {w w' : World σ} {key : Bytes} {args : List Slice}

/-- An instant that is read back from the milliseconds it is logged with. -/
def Loggable (t : Int) : Prop := -2 ^ 63 ≤ t ∧ t < 2 ^ 63 ∧ (0 ≤ t ∨ millisecond ∣ t)

theorem loggable_iff (t : Int) : t.fdiv millisecond = (replayed t).fdiv millisecond ↔ Loggable t := by
  have hlo : -2 ^ 63 ≤ wrap64 t := by
    have hle := Int.le_bmod (x := t) (m := 2 ^ 64) (by decide)
    rw [wrap64]
    omega
  have hhi : wrap64 t < 2 ^ 63 := by
    have hlt := Int.bmod_lt (x := t) (m := 2 ^ 64) (by decide)
    rw [wrap64]
    omega
  have hmod : wrap64 t % 2 ^ 64 = t % 2 ^ 64 := Int.bmod_emod
  have hmilli : millisecond = 1000000 := rfl
  rw [replayed, unixNano, Loggable, hmilli]
  generalize wrap64 t = i at hlo hhi hmod
  -- Go truncates an instant before 1970 towards it
  have hdiv : i.tdiv 1000000 = if 0 ≤ i then i / 1000000 else -(-i / 1000000) := by
    split
    · next hpos => exact Int.tdiv_eq_ediv_of_nonneg hpos
    · next hneg => rw [← Int.tdiv_eq_ediv_of_nonneg (by omega), Int.neg_tdiv, Int.neg_neg]
  have hwrap : wrap64 (i.tdiv 1000000 * 1000000) = i.tdiv 1000000 * 1000000 := by
    rw [wrap64]
    apply Int.bmod_eq_of_le
    · split at hdiv <;> omega
    · split at hdiv <;> omega
  rw [hwrap, Int.fdiv_eq_ediv_of_nonneg _ (by decide), Int.fdiv_eq_ediv_of_nonneg _ (by decide),
    Int.mul_ediv_cancel _ (by decide)]
  split at hdiv <;> omega

section

variable (env) (w) (args)

def SetLoses : Prop :=
  ∃ key value options policy ttl, args = key :: value :: options ∧
    setOptions .upsert unlimitedTTL options = .ok (policy, ttl) ∧
    policy.allows (w.db.slot (text key)).data.isSome = true ∧ ttl ≠ unlimitedTTL ∧
    ¬ Loggable (after env ttl)

/-- The line under `setex` sets the time in seconds, and may leave the key expired before the other
line comes. -/
def SetEXLoses (unit : Int) : Prop :=
  ∃ key rawTTL value rest n, args = key :: rawTTL :: value :: rest ∧
    parseInt 64 (text rawTTL) = some n ∧ 0 < n ∧
    (after env (wrap64 (n * 1000)) < env.now ∨ ¬ Loggable (after env (wrap64 (n * unit))))

def ExpireLoses (instant : Int → Int) : Prop :=
  ∃ key rawTime rest n, args = key :: rawTime :: rest ∧ parseInt 64 (text rawTime) = some n ∧
    (w.db.slot (text key)).data ≠ none ∧ ¬ Loggable (instant n)

/-- `GETEX` fails after the key was persisted, or sets a time to live that is not read back. -/
def GetEXLoses : Prop :=
  ∃ key options s, args = key :: options ∧ (w.db.slot (text key)).data = some (.str (some s)) ∧
    match getExParse unlimitedTTL options with
    | (persisted, .error _) => persisted = true ∧ (w.db.slot (text key)).ttl ≠ none
    | (_, .ok ttl) => ttl ≠ unlimitedTTL ∧ ¬ Loggable (after env ttl)

/-- `SETBIT` hands nothing on. -/
def SetBitLoses : Prop :=
  ∃ key rawOffset rawBit rest offset v s s', args = key :: rawOffset :: rawBit :: rest ∧
    parseInt 64 (text rawOffset) = some offset ∧ parseBit rawBit = some v ∧
    (w.db.slot (text key)).string env.now = .ok s ∧ BitMap.getBit (text s) offset ≠ none ∧
    BitMap.setBit (text s) offset v = some s' ∧ (w.db.slot (text key)).data ≠ some (.str (some s'))

end

section

variable [LinearOrder σ] [Inhabited σ]

theorem load_expire (t : Int) (v : World σ) (k : Bytes) :
    (exec (env.rechoose ch) (makeExpireCmd key t) v).2.db.slot k =
      if k = key then
        if (v.db.slot key).live env.now = none then (v.db.slot key).evict env.now
        else ⟨(v.db.slot key).data, some (replayed t)⟩
      else v.db.slot k := by
  rw [← rechoose_atTime]
  exact exec_makeExpireCmd t v k

/-- The line of a `SET` without a time to live. -/
theorem load_set {name : String} (hname : cmdTable (toLower (bytes name)) = some .set)
    {key value : Slice} {options : List Slice} {policy : Policy}
    (ho : setOptions .upsert unlimitedTTL options = .ok (policy, unlimitedTTL)) (v : World σ)
    (hallows : policy.allows (v.db.slot (text key)).data.isSome = true) (k : Bytes) :
    (exec (env.rechoose ch) (cmdLine3 name (key :: value :: options)) v).2.db.slot k =
      if k = text key then ⟨some (.str value), none⟩ else v.db.slot k := by
  rw [← rechoose_atTime]
  exact exec_set hname ho v hallows k

/-- The expiration of a key that is there is set again. -/
theorem recovers_expire_iff {e : Entity σ} {t : Int} (hfresh : NoneExpired env w)
    (hdata : (w.db.slot key).data = some e) (haof : w'.aof = w.aof ++ [makeExpireCmd key t])
    (hslot : ∀ k, w'.db.slot k = if k = key then ⟨some e, some t⟩ else w.db.slot k) :
    Recovers env ch w w' ↔ Loggable t := by
  have hlive : (w.db.slot key).live env.now ≠ none := by
    rw [Slot.live, hfresh key, if_neg Bool.false_ne_true, hdata]
    exact Option.some_ne_none e
  rw [recovers_append_iff haof, ← loggable_iff, ← Slot.agrees_ttl_iff (e := e)]
  apply agrees_at_iff hslot
  intro k
  rw [loadAof_cons, loadAof_nil, load_expire, if_neg hlive, hdata]

/-- A value is written by the first line and its expiration set by the second, which finds the key
as the first one leaves it. -/
theorem recovers_write_iff {e : Entity σ} {t : Int} {ttl : Option Int} {line : CmdLine}
    (haof : w'.aof = w.aof ++ [line, makeExpireCmd key t])
    (hslot : ∀ k, w'.db.slot k = if k = key then ⟨some e, some t⟩ else w.db.slot k)
    (hline : ∀ k, (exec (env.rechoose ch) line w).2.db.slot k =
      if k = key then ⟨some e, ttl⟩ else w.db.slot k) :
    Recovers env ch w w' ↔ (⟨some e, ttl⟩ : Slot σ).isExpired env.now = false ∧ Loggable t := by
  have hload (k : Bytes) :
      (loadAof (env.rechoose ch) [line, makeExpireCmd key t] w).db.slot k =
        if k = key then
          if (⟨some e, ttl⟩ : Slot σ).isExpired env.now then .empty else ⟨some e, some (replayed t)⟩
        else w.db.slot k := by
    rw [loadAof_cons, loadAof_cons, loadAof_nil, load_expire, hline, if_pos rfl, hline]
    by_cases hk : k = key
    · rw [if_pos hk, if_pos hk]
      cases hexpired : (⟨some e, ttl⟩ : Slot σ).isExpired env.now <;> simp [Slot.live, Slot.evict, hexpired]
    · rw [if_neg hk, if_neg hk, if_neg hk]
  rw [recovers_append_iff haof, agrees_at_iff hslot hload, ← loggable_iff]
  cases (⟨some e, ttl⟩ : Slot σ).isExpired env.now with
  | true => simp [Slot.Agrees, Slot.empty]
  | false => simp [Slot.agrees_ttl_iff]

theorem execSet_logged_iff : Logged env ch (execSet env args) w ↔ ¬ SetLoses env w args := by
  rcases args with _ | ⟨key, _ | ⟨value, options⟩⟩
  · exact iff_of_true .panics (by simp [SetLoses])
  · exact iff_of_true .panics (by simp [SetLoses])
  have hloses : SetLoses env w (key :: value :: options) ↔ ∃ policy ttl,
      setOptions .upsert unlimitedTTL options = .ok (policy, ttl) ∧
        policy.allows (w.db.slot (text key)).data.isSome = true ∧ ttl ≠ unlimitedTTL ∧
          ¬ Loggable (after env ttl) := by
    constructor
    · rintro ⟨key', value', options', policy, ttl, heq, h⟩
      cases heq
      exact ⟨policy, ttl, h⟩
    · rintro ⟨policy, ttl, h⟩
      exact ⟨key, value, options, policy, ttl, rfl, h⟩
  rw [hloses, Logged.iff_final, execSet_final]
  cases ho : setOptions .upsert unlimitedTTL options with
  | error e => exact iff_of_true (.of_slot rfl rfl) (by simp)
  | ok p =>
      obtain ⟨policy, ttl⟩ := p
      simp only [Except.ok.injEq, Prod.mk.injEq, and_assoc, exists_and_left, exists_eq_left']
      cases hallows : policy.allows (w.db.slot (text key)).data.isSome with
      | false => exact iff_of_true (.of_slot rfl rfl) (by simp)
      | true =>
          rw [if_pos rfl]
          by_cases httl : ttl = unlimitedTTL
          · simp only [httl, ne_eq, not_true_eq_false, if_false, false_and, and_false, not_false_eq_true, iff_true]
            refine (recovers_append_iff rfl).mpr fun k => Slot.agrees_of_eq ?_
            rw [loadAof_cons, loadAof_nil]
            rw [load_set rfl (httl ▸ ho) w hallows]
            by_cases hk : k = text key <;> simp [hk]
          · rw [if_pos httl]
            have hwrite : Recovers env ch w
                ⟨(w.db.put (text key) (.str value)).expire (text key) (after env ttl),
                  w.aof ++ [cmdLine3 "SET" [key, value], makeExpireCmd (text key) (after env ttl)]⟩ ↔ _ :=
              recovers_write_iff rfl (fun k => by by_cases hk : k = text key <;> simp [hk])
                (fun k => load_set rfl rfl w rfl k)
            rw [hwrite]
            simp [httl, Slot.isExpired]

omit [LinearOrder σ] [Inhabited σ] in
theorem setWithTTL_final (unit : Int) (key rawTTL value : Slice) (rest : List Slice) (w : World σ) :
    final (setWithTTL env unit (key :: rawTTL :: value :: rest)) w =
      match parseInt 64 (text rawTTL) with
      | none => w
      | some n =>
          if n ≤ 0 then w
          else ⟨(w.db.put (text key) (.str value)).expire (text key) (after env (wrap64 (n * unit))),
            w.aof ++ [cmdLine3 "setex" (key :: rawTTL :: value :: rest),
              makeExpireCmd (text key) (after env (wrap64 (n * unit)))]⟩ := by
  apply final_eq
  simp only [setWithTTL]
  cases parseInt 64 (text rawTTL) with
  | none => rfl
  | some n =>
      dsimp only
      split
      · rfl
      · simp [putEntity, expire]

theorem setWithTTL_logged_iff (unit : Int)
    (harity : validateArity 4 (cmdLine3 "setex" args) = true) :
    Logged env ch (setWithTTL env unit args) w ↔ ¬ SetEXLoses env args unit := by
  rcases args with _ | ⟨key, _ | ⟨rawTTL, _ | ⟨value, rest⟩⟩⟩
  · exact iff_of_true .panics (by simp [SetEXLoses])
  · exact iff_of_true .panics (by simp [SetEXLoses])
  · exact iff_of_true .panics (by simp [SetEXLoses])
  have hloses : SetEXLoses env (key :: rawTTL :: value :: rest) unit ↔
      ∃ n, parseInt 64 (text rawTTL) = some n ∧ 0 < n ∧
        (after env (wrap64 (n * 1000)) < env.now ∨ ¬ Loggable (after env (wrap64 (n * unit)))) := by
    constructor
    · rintro ⟨key', rawTTL', value', rest', n, heq, h⟩
      cases heq
      exact ⟨n, h⟩
    · rintro ⟨n, h⟩
      exact ⟨key, rawTTL, value, rest, n, rfl, h⟩
  rw [hloses, Logged.iff_final, setWithTTL_final]
  cases hn : parseInt 64 (text rawTTL) with
  | none => exact iff_of_true (.of_slot rfl rfl) (by simp)
  | some n =>
      simp only [Option.some.injEq, exists_eq_left']
      by_cases hle : n ≤ 0
      · rw [if_pos hle]
        exact iff_of_true (.of_slot rfl rfl) fun h => absurd h.1 (by omega)
      · rw [if_neg hle]
        have hline (k : Bytes) :
            (exec (env.rechoose ch) (cmdLine3 "setex" (key :: rawTTL :: value :: rest)) w).2.db.slot k =
              if k = text key then ⟨some (.str value), some (after env (wrap64 (n * 1000)))⟩
              else w.db.slot k := by
          rw [exec_again (c := .setEX) rfl harity (steady_of_mem (by decide) _)]
          have hfinal : final ((command env .setEX).executor (key :: rawTTL :: value :: rest)) w = _ :=
            setWithTTL_final 1000 key rawTTL value rest w
          rw [hfinal, hn]
          dsimp only
          rw [if_neg hle]
          by_cases hk : k = text key <;> simp [hk]
        rw [recovers_write_iff rfl (fun k => by by_cases hk : k = text key <;> simp [hk]) hline]
        have hpos : 0 < n := by omega
        simp [hpos, Slot.isExpired]

theorem expireCommand_logged_iff (hfresh : NoneExpired env w) (instant : Int → Int) :
    Logged env ch (expireCommand env instant args) w ↔ ¬ ExpireLoses w args instant := by
  rcases args with _ | ⟨key, _ | ⟨rawTime, rest⟩⟩
  · exact iff_of_true .panics (by simp [ExpireLoses])
  · exact iff_of_true .panics (by simp [ExpireLoses])
  have hloses : ExpireLoses w (key :: rawTime :: rest) instant ↔
      ∃ n, parseInt 64 (text rawTime) = some n ∧ (w.db.slot (text key)).data ≠ none ∧
        ¬ Loggable (instant n) := by
    constructor
    · rintro ⟨key', rawTime', rest', n, heq, h⟩
      cases heq
      exact ⟨n, h⟩
    · rintro ⟨n, h⟩
      exact ⟨key, rawTime, rest, n, rfl, h⟩
  rw [hloses, Logged.iff_final, expireCommand_final]
  cases hn : parseInt 64 (text rawTime) with
  | none => exact iff_of_true (.of_slot rfl rfl) (by simp)
  | some n =>
      simp only [Option.some.injEq, exists_eq_left', hfresh.evict, ← DB.live_slot, hfresh.live]
      cases hdata : (w.db.slot (text key)).data with
      | none => exact iff_of_true (.of_slot rfl rfl) (by simp)
      | some e =>
          rw [if_neg (Option.some_ne_none e), recovers_expire_iff hfresh hdata rfl fun k => ?_]
          · simp
          · by_cases hk : k = text key <;> simp [hk, hdata]

omit [LinearOrder σ] [Inhabited σ] in
theorem string_of_fresh (hfresh : NoneExpired env w) (s : Slice) :
    (w.db.slot key).string env.now = .ok s ↔
      (w.db.slot key).data = some (.str s) ∨ (w.db.slot key).data = none ∧ s = none := by
  rw [Slot.string, ← DB.live_slot, hfresh.live]
  cases (w.db.slot key).data with
  | none => simp [eq_comm]
  | some e => cases e <;> simp [Entity.asString]

theorem execGetEX_logged_iff (hfresh : NoneExpired env w) :
    Logged env ch (execGetEX env args) w ↔ ¬ GetEXLoses env w args := by
  rcases args with _ | ⟨key, options⟩
  · exact iff_of_true .panics (by simp [GetEXLoses])
  have hloses : GetEXLoses env w (key :: options) ↔
      ∃ s, (w.db.slot (text key)).string env.now = .ok (some s) ∧
        match getExParse unlimitedTTL options with
        | (persisted, .error _) => persisted = true ∧ (w.db.slot (text key)).ttl ≠ none
        | (_, .ok ttl) => ttl ≠ unlimitedTTL ∧ ¬ Loggable (after env ttl) := by
    simp only [string_of_fresh hfresh, reduceCtorEq, and_false, or_false]
    constructor
    · rintro ⟨key', options', s, heq, h⟩
      cases heq
      exact ⟨s, h⟩
    · rintro ⟨s, h⟩
      exact ⟨key, options, s, rfl, h⟩
  rw [hloses, Logged.iff_final, execGetEX_final, hfresh.evict]
  have hunchanged : Recovers env ch w w := .of_slot rfl rfl
  cases hs : (w.db.slot (text key)).string env.now with
  | error e => exact iff_of_true hunchanged (by simp)
  | ok o =>
      cases o with
      | none => exact iff_of_true hunchanged (by simp)
      | some s =>
          have hdata : (w.db.slot (text key)).data = some (.str (some s)) :=
            ((string_of_fresh hfresh _).mp hs).resolve_right (by simp)
          simp only [Except.ok.injEq, Option.some.injEq, exists_eq_left']
          rcases hparse : getExParse unlimitedTTL options with ⟨persisted, parsed⟩
          cases parsed with
          | error e =>
              cases persisted with
              | false => exact iff_of_true hunchanged (by simp)
              | true =>
                  simp only [if_true, true_and]
                  have hslot (k : Bytes) : (w.db.persist (text key)).slot k =
                      if k = text key then ⟨some (.str (some s)), none⟩ else w.db.slot k := by
                    rw [DB.slot_persist, hdata]
                  have hsame : (Entity.str (some s) : Entity σ).Same (.str (some s)) := .refl _
                  rw [recovers_silent_iff hslot]
                  simp [Slot.Agrees, hdata, hsame, eq_comm]
          | ok ttl =>
              by_cases hoptions : options = []
              · subst hoptions
                cases hparse
                exact iff_of_true hunchanged (by simp)
              · dsimp only
                rw [if_neg hoptions]
                by_cases httl : ttl = unlimitedTTL
                · simp only [httl, ne_eq, not_true_eq_false, if_false, false_and, not_false_eq_true, iff_true]
                  refine (recovers_append_iff rfl).mpr fun k => Slot.agrees_of_eq ?_
                  rw [loadAof_cons, loadAof_nil]
                  rw [← rechoose_atTime, exec_persist, if_neg (live_of_string hs)]
                  by_cases hk : k = text key <;> cases persisted <;> simp [hk]
                · rw [if_pos httl, recovers_expire_iff hfresh hdata rfl fun k => ?_]
                  · simp [httl]
                  · by_cases hk : k = text key <;> cases persisted <;> simp [hk, hdata]

theorem execSetBit_logged_iff (hfresh : NoneExpired env w) :
    Logged env ch (execSetBit env args) w ↔ ¬ SetBitLoses env w args := by
  rcases args with _ | ⟨key, _ | ⟨rawOffset, _ | ⟨rawBit, rest⟩⟩⟩
  · exact iff_of_true .panics (by simp [SetBitLoses])
  · exact iff_of_true .panics (by simp [SetBitLoses])
  · exact iff_of_true .panics (by simp [SetBitLoses])
  have hloses : SetBitLoses env w (key :: rawOffset :: rawBit :: rest) ↔ ∃ offset v s s',
      parseInt 64 (text rawOffset) = some offset ∧ parseBit rawBit = some v ∧
        (w.db.slot (text key)).string env.now = .ok s ∧ BitMap.getBit (text s) offset ≠ none ∧
        BitMap.setBit (text s) offset v = some s' ∧
        (w.db.slot (text key)).data ≠ some (.str (some s')) := by
    constructor
    · rintro ⟨key', rawOffset', rawBit', rest', offset, v, s, s', heq, h⟩
      cases heq
      exact ⟨offset, v, s, s', h⟩
    · rintro ⟨offset, v, s, s', h⟩
      exact ⟨key, rawOffset, rawBit, rest, offset, v, s, s', rfl, h⟩
  rw [hloses, Logged, execSetBit]
  cases hoffset : parseInt 64 (text rawOffset) with
  | none => exact iff_of_true (.of_slot rfl rfl) (by simp)
  | some offset =>
      cases hv : parseBit rawBit with
      | none => exact iff_of_true (.of_slot rfl rfl) (by simp)
      | some v =>
          have hunchanged : Recovers env ch w w := .of_slot rfl rfl
          simp only [Option.some.injEq, exists_and_left, exists_eq_left', wp_bind, wp_getAsString,
            hfresh.evict]
          cases hs : (w.db.slot (text key)).string env.now with
          | error e => exact iff_of_true hunchanged (by simp)
          | ok s =>
              simp only [Except.ok.injEq, exists_eq_left']
              cases hget : BitMap.getBit (text s) offset with
              | none => exact iff_of_true hunchanged (by simp)
              | some former =>
                  cases hset : BitMap.setBit (text s) offset v with
                  | none => exact iff_of_true hunchanged (by simp)
                  | some s' =>
                      simp only [putEntity, wp_bind, wp_modifyDB, wp_pure]
                      rw [recovers_silent_iff fun k => DB.slot_put _]
                      have hsame (e : Entity σ) : (Entity.str (some s')).Same e ↔ Entity.str (some s') = e :=
                        Entity.same_iff_eq (by rintro z ⟨⟩)
                      cases hdata : (w.db.slot (text key)).data <;>
                        simp [Slot.Agrees, hdata, hsame, eq_comm]

end

end Traitor.Database
