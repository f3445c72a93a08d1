import Traitor.FailedCommands
import Traitor.InstantExpiry
import Traitor.UndoneCommands
import Traitor.WriteSets

namespace Traitor.Database

open Lib.Effects Lib.Strconv Protocol

variable {σ : Type} {env : Env σ} {v w : World σ} {key : Bytes}

/-- The value is back, and its expiration too, which may be cut to milliseconds. -/
def Slot.Back (s s' : Slot σ) : Prop := s'.data = s.data ∧ (s'.ttl = s.ttl ∨ s'.ttl = s.ttl.map replayed)

def Back (w v : World σ) : Prop := ∀ key, (w.db.slot key).Back (v.db.slot key)

theorem Slot.Back.refl (s : Slot σ) : s.Back s := ⟨rfl, .inl rfl⟩

theorem Slot.Back.restored (s : Slot σ) : s.Back s.restored := ⟨rfl, .inr rfl⟩

theorem Slot.Back.whole {s s' : Slot σ} (h : s.Back s') (hs : s.Whole) : s'.Whole := by
  intro hnone
  have httl := hs (h.1 ▸ hnone)
  rcases h.2 with heq | heq <;> simp [heq, httl]

theorem Slot.Back.eq_empty {s' : Slot σ} (h : Slot.empty.Back s') : s' = .empty := by
  obtain ⟨data, ttl⟩ := s'
  obtain ⟨rfl, rfl | rfl⟩ := h <;> rfl

theorem Back.whole (h : Back w v) (hw : w.db.Whole) : v.db.Whole := fun key => (h key).whole (hw key)

/-- What is back is not expired, where the expiration has not passed even when it is cut. -/
theorem Back.fresh (h : Back w v) (hw : Unexpired env w) (key : Bytes) :
    (v.db.slot key).isExpired env.now = false := by
  refine isExpired_of_lasts fun t ht => ?_
  rcases (h key).2 with heq | heq
  · exact (hw.lasts key t (heq ▸ ht)).1
  · rw [heq] at ht
    obtain ⟨t', ht', rfl⟩ := Option.map_eq_some_iff.mp ht
    exact (hw.lasts key t' ht').2

section

variable [LinearOrder σ] [Inhabited σ] {c : CommandName} {name : Slice} {args : List Slice}

def undoLogs (env : Env σ) (c : CommandName) (args : List Slice) : Exec σ (List CmdLine) :=
  match (command env c).undo with
  | none => return []
  | some undo => undo args

/-- The undo lines found before the command bring everything back after it, also where later undo lines
have cut expirations to milliseconds. -/
def TakenBack (env : Env σ) (c : CommandName) (args : List Slice) (w : World σ) : Prop :=
  ∃ lines, Runs (undoLogs env c args) w lines w ∧
    ∀ v, Back (final ((command env c).executor args) w) v →
      ∃ v', Runs (Transaction.execUndo env lines) v ⟨⟩ v' ∧ Back w v'

theorem read_takenBack (h : Unexpired env w) (hc : (command env c).undo = none) :
    TakenBack env c args w := by
  refine ⟨[], ?_, fun v hv => ⟨v, .pure _ v, fun key => ?_⟩⟩
  · rw [undoLogs, hc]
    exact .pure _ w
  · have hquiet := (read_moves env args hc).final w
    rw [← h.slot_of_kept (hquiet.2.2 key)]
    exact hv key

/-- What a command does not write is as it was. -/
theorem Unexpired.slot_of_within (h : Unexpired env w) {keys : List Bytes}
    (hkeys : ∀ key ∈ ((command env c).prepare args).1 ++ movedKeys c args, key ∈ keys) (hkey : key ∉ keys) :
    (final ((command env c).executor args) w).db.slot key = w.db.slot key :=
  h.slot_of_kept (((command_within c args).final w).2 key fun hmem => hkey (hkeys key hmem))

theorem keys_takenBack (h : Unexpired env w) {keys : List Bytes}
    (hundo : undoLogs env c args = rollbackGivenKeys env keys)
    (hkeys : ∀ key ∈ ((command env c).prepare args).1 ++ movedKeys c args, key ∈ keys)
    (hrestorable : ∀ key ∈ keys, Restorable (w.db.slot key).data)
    (hafter : (final ((command env c).executor args) w).db.Whole) : TakenBack env c args w := by
  refine ⟨_, hundo ▸ rollbackGivenKeys_runs h hrestorable, fun v hv => ?_⟩
  obtain ⟨v', hrun, hslots⟩ : Undoes env _ v _ := rollbackGivenKeys_undo h.whole hrestorable (hv.whole hafter)
  refine ⟨v', hrun, fun key => ?_⟩
  rw [hslots]
  by_cases hkey : key ∈ keys
  · simp only [hkey, if_true]
    exact .restored _
  · simp only [hkey, if_false]
    rw [← h.slot_of_within hkeys hkey]
    exact hv key

/-- The commands whose undo lines restore their first key as a whole. `SETRANGE` and `SETBIT` are not
among them: they write into the bytes that are in their undo line. -/
def firstKeys : List CommandName :=
  [.set, .setNx, .setEX, .pSetEX, .getEX, .getSet, .getDel, .incr, .incrBy, .incrByFloat, .decr, .decrBy,
    .append, .lRem, .sInterStore, .sUnionStore, .sDiffStore, .zPopMin, .zRemRangeByScore, .zRemRangeByRank]

/-- The keys that undo lines restore as a whole. -/
def covered : CommandName → List Slice → List Bytes
  | .mset, args | .mSetNX, args => (prepareMSet args).1
  | .del, args => args.map text
  | .rename, args | .renameNx, args => (prepareRename args).2 ++ (prepareRename args).1
  | _, args => (writeFirstKey args).1

theorem firstKeys_spec (env : Env σ) (name : Slice) (hc : c ∈ firstKeys) :
    (command env c).undo = some (rollbackFirstKey env) ∧
      validateArity (command env c).arity [name] = false ∧
      ∀ key rest, ((command env c).prepare (key :: rest)).1 ++ movedKeys c (key :: rest) = [text key] ∧
        covered c (key :: rest) = [text key] := by
  simp only [firstKeys, List.mem_cons, List.not_mem_nil, or_false] at hc
  rcases hc with rfl | rfl | rfl | rfl | rfl | rfl | rfl | rfl | rfl | rfl | rfl | rfl | rfl | rfl | rfl |
    rfl | rfl | rfl | rfl | rfl
  all_goals exact ⟨rfl, rfl, fun _ _ => ⟨rfl, rfl⟩⟩

def wholeKeys : List CommandName := [.mset, .mSetNX, .del, .rename, .renameNx] ++ firstKeys

theorem wholeKeys_spec (hc : c ∈ wholeKeys) (harity : validateArity (command env c).arity (name :: args) = true) :
    undoLogs env c args = rollbackGivenKeys env (covered c args) ∧
      ∀ key ∈ ((command env c).prepare args).1 ++ movedKeys c args, key ∈ covered c args := by
  rcases List.mem_append.mp hc with hc | hc
  · simp only [List.mem_cons, List.not_mem_nil, or_false] at hc
    rcases hc with rfl | rfl | rfl | rfl | rfl
    · exact ⟨rfl, fun key hkey => by simpa [command, movedKeys, covered] using hkey⟩
    · exact ⟨rfl, fun key hkey => by simpa [command, movedKeys, covered] using hkey⟩
    · exact ⟨rfl, fun key hkey => by simpa [command, movedKeys, covered, writeAllKeys] using hkey⟩
    · rcases args with _ | ⟨src, _ | ⟨dest, rest⟩⟩
      · exact absurd harity Bool.false_ne_true
      · exact absurd harity Bool.false_ne_true
      · exact ⟨rfl, fun key hkey => List.mem_append.mpr (List.mem_append.mp hkey).symm⟩
    · rcases args with _ | ⟨src, _ | ⟨dest, rest⟩⟩
      · exact absurd harity Bool.false_ne_true
      · exact absurd harity Bool.false_ne_true
      · exact ⟨rfl, fun key hkey => List.mem_append.mpr (List.mem_append.mp hkey).symm⟩
  · obtain ⟨hundo, hshort, hkeys⟩ := firstKeys_spec env name hc
    rcases args with _ | ⟨key, rest⟩
    · rw [hshort] at harity
      exact absurd harity Bool.false_ne_true
    · obtain ⟨hwrites, hcovered⟩ := hkeys key rest
      rw [undoLogs, hundo, hwrites, hcovered]
      exact ⟨rfl, fun _ hkey => hkey⟩

def expirings : List CommandName := [.expire, .expireAt, .pExpire, .pExpireAt, .persist]

def ChangesTTL (key : Bytes) (w w' : World σ) : Prop :=
  (w'.db.slot key).data = (w.db.slot key).data ∧ ∀ k ≠ key, w'.db.slot k = w.db.slot k

omit [LinearOrder σ] [Inhabited σ] in
theorem ChangesTTL.refl (key : Bytes) (w : World σ) : ChangesTTL key w w := ⟨rfl, fun _ _ => rfl⟩

omit [LinearOrder σ] [Inhabited σ] in
theorem expireCommand_changesTTL (h : Unexpired env w) (instant : Int → Int) (key : Slice) (rest : List Slice) :
    ChangesTTL (text key) w (final (expireCommand env instant (key :: rest)) w) := by
  rcases rest with _ | ⟨rawTime, rest⟩
  · exact .refl _ w
  · rw [expireCommand_final]
    cases parseInt 64 (text rawTime) with
    | none => exact .refl _ w
    | some n =>
        simp only [h.evict_eq]
        split
        · exact .refl _ w
        · exact ⟨by simp, fun k hk => by simp [hk]⟩

omit [LinearOrder σ] [Inhabited σ] in
theorem execPersist_changesTTL (h : Unexpired env w) (key : Slice) (rest : List Slice) :
    ChangesTTL (text key) w (final (execPersist env (key :: rest)) w) := by
  rw [execPersist_final]
  simp only [h.evict_eq]
  split
  · exact .refl _ w
  · exact ⟨by simp, fun k hk => by simp [hk]⟩

theorem expirings_spec (h : Unexpired env w) (hc : c ∈ expirings)
    (harity : validateArity (command env c).arity (name :: args) = true) :
    ∃ key, undoLogs env c args = (do return [← toTTLCmd key]) ∧
      ChangesTTL key w (final ((command env c).executor args) w) := by
  rcases args with _ | ⟨key, rest⟩
  · simp only [expirings, List.mem_cons, List.not_mem_nil, or_false] at hc
    rcases hc with rfl | rfl | rfl | rfl | rfl
    all_goals exact absurd harity Bool.false_ne_true
  · refine ⟨text key, ?_⟩
    simp only [expirings, List.mem_cons, List.not_mem_nil, or_false] at hc
    rcases hc with rfl | rfl | rfl | rfl | rfl
    · exact ⟨rfl, expireCommand_changesTTL h _ key rest⟩
    · exact ⟨rfl, expireCommand_changesTTL h _ key rest⟩
    · exact ⟨rfl, expireCommand_changesTTL h _ key rest⟩
    · exact ⟨rfl, expireCommand_changesTTL h _ key rest⟩
    · exact ⟨rfl, execPersist_changesTTL h key rest⟩

theorem expiring_takenBack (h : Unexpired env w) (hc : c ∈ expirings)
    (harity : validateArity (command env c).arity (name :: args) = true)
    (hafter : Unexpired env (final ((command env c).executor args) w)) : TakenBack env c args w := by
  obtain ⟨key, hundo, hdata, hothers⟩ := expirings_spec h hc harity
  have hruns : Runs (undoLogs env c args) w [ttlLine key (w.db.slot key).ttl] w := by
    rw [hundo]
    exact (toTTLCmd_runs key w).bind (.pure _ w)
  refine ⟨_, hruns, fun v hv => ?_⟩
  have hback : ∀ ttl, Turns env (ttlLine key (w.db.slot key).ttl) key v ⟨(v.db.slot key).data, ttl⟩ →
      (w.db.slot key).Back ⟨(v.db.slot key).data, ttl⟩ →
      ∃ v', Runs (Transaction.execUndo env [ttlLine key (w.db.slot key).ttl]) v ⟨⟩ v' ∧ Back w v' := by
    intro ttl hturns hslot
    obtain ⟨v', hrun, hslots⟩ := Undoes.single hturns
    refine ⟨v', hrun, fun k => ?_⟩
    rw [hslots]
    dsimp only
    split
    · next hk => exact hk ▸ hslot
    · next hk => exact hothers k hk ▸ hv k
  have hsame : (v.db.slot key).data = (w.db.slot key).data := (hv key).1.trans hdata
  have hfresh := hv.fresh hafter key
  cases hnone : (w.db.slot key).data with
  | none =>
      have httl : (w.db.slot key).ttl = none := h.whole key hnone
      rw [httl] at hback ⊢
      exact hback none (persist_turns (hv.whole hafter.whole key) hfresh) ⟨hsame, .inl httl.symm⟩
  | some e =>
      have hlive : (v.db.slot key).live env.now ≠ none := by
        rw [Slot.live, hfresh, if_neg Bool.false_ne_true, hsame, hnone]
        exact Option.some_ne_none e
      exact hback _ (ttl_turns hlive _) ⟨hsame, .inr rfl⟩

/-- The commands whose undo lines restore items under their first key. -/
def itemwise : List CommandName :=
  [.hSet, .hSetNX, .hDel, .hMSet, .hIncrBy, .hIncrByFloat, .sAdd, .sRem, .sPop, .zAdd, .zRem, .zIncrBy]

omit [LinearOrder σ] [Inhabited σ] in
theorem rollbackItems_absent (h : Unexpired env w) (hnone : (w.db.slot key).data = none) {α : Type}
    (view : Entity σ → Option α) (restore : α → Bytes → Option CmdLine) (items : List Bytes) :
    Runs (rollbackItems env view restore key items) w [cmdLine "DEL" [key]] w := by
  have hview : w.db.view env view key = .ok none := by
    rw [DB.view, h.live, hnone]
  exact (hview ▸ getAs_runs (h.fresh key) view).bind (.pure _ w)

theorem itemwise_spec (h : Unexpired env w) (hc : c ∈ itemwise)
    (harity : validateArity (command env c).arity (name :: args) = true)
    (hnone : ∀ key ∈ (writeFirstKey args).1, (w.db.slot key).data = none) :
    ∃ key, (w.db.slot key).data = none ∧ Runs (undoLogs env c args) w [cmdLine "DEL" [key]] w ∧
      ∀ k ∈ ((command env c).prepare args).1 ++ movedKeys c args, k ∈ [key] := by
  rcases args with _ | ⟨key, rest⟩
  · simp only [itemwise, List.mem_cons, List.not_mem_nil, or_false] at hc
    rcases hc with rfl | rfl | rfl | rfl | rfl | rfl | rfl | rfl | rfl | rfl | rfl | rfl
    all_goals exact absurd harity Bool.false_ne_true
  · have hkey : (w.db.slot (text key)).data = none := hnone _ List.mem_cons_self
    simp only [itemwise, List.mem_cons, List.not_mem_nil, or_false] at hc
    refine ⟨text key, hkey, ?_, ?_⟩
    · have hhash (fields : List Bytes) :
          Runs (rollbackHashFields env (text key) fields) w [cmdLine "DEL" [text key]] w :=
        rollbackItems_absent h hkey _ _ fields
      have hset (members : List Bytes) :
          Runs (rollbackSetMembers env (text key) members) w [cmdLine "DEL" [text key]] w :=
        rollbackItems_absent h hkey _ _ members
      have hzset (fields : List Bytes) :
          Runs (rollbackZSetFields env (text key) fields) w [cmdLine "DEL" [text key]] w :=
        rollbackItems_absent h hkey _ _ fields
      rcases hc with rfl | rfl | rfl | rfl | rfl | rfl | rfl | rfl | rfl | rfl | rfl | rfl
      · rcases rest with _ | ⟨field, rest⟩
        · exact absurd harity Bool.false_ne_true
        · exact hhash [text field]
      · rcases rest with _ | ⟨field, rest⟩
        · exact absurd harity Bool.false_ne_true
        · exact hhash [text field]
      · exact hhash (rest.map text)
      · exact hhash ((fieldPairs rest).map fun p => text p.1)
      · rcases rest with _ | ⟨field, rest⟩
        · exact absurd harity Bool.false_ne_true
        · exact hhash [text field]
      · rcases rest with _ | ⟨field, rest⟩
        · exact absurd harity Bool.false_ne_true
        · exact hhash [text field]
      · exact hset (rest.map text)
      · exact hset (rest.map text)
      · exact hset (rest.map text)
      · exact hzset ((fieldPairs rest).map fun p => text p.2)
      · exact hzset (rest.map text)
      · rcases rest with _ | ⟨delta, _ | ⟨field, rest⟩⟩
        · exact absurd harity Bool.false_ne_true
        · exact absurd harity Bool.false_ne_true
        · exact hzset [text field]
    · rcases hc with rfl | rfl | rfl | rfl | rfl | rfl | rfl | rfl | rfl | rfl | rfl | rfl
      all_goals exact fun _ hk => hk

theorem absent_takenBack (h : Unexpired env w) (hc : c ∈ itemwise)
    (harity : validateArity (command env c).arity (name :: args) = true)
    (hnone : ∀ key ∈ (writeFirstKey args).1, (w.db.slot key).data = none)
    (hafter : (final ((command env c).executor args) w).db.Whole) : TakenBack env c args w := by
  obtain ⟨key, hkey, hruns, hwrites⟩ := itemwise_spec h hc harity hnone
  refine ⟨_, hruns, fun v hv => ?_⟩
  obtain ⟨v', hrun, hslots⟩ : Undoes env [cmdLine "DEL" [key]] v _ := .single (del_turns (hv.whole hafter))
  refine ⟨v', hrun, fun k => ?_⟩
  rw [hslots]
  dsimp only
  split
  · next hk =>
      have hempty : w.db.slot k = .empty := hk ▸ h.empty_of_none hkey
      rw [hempty]
      exact .refl _
  · next hk =>
      rw [← h.slot_of_within hwrites (by simpa using hk)]
      exact hv k

/-- The lines for members take back a change of the set, which keeps the members that are not named. -/
theorem members_takenBack {s x : Finset Bytes} {members : List Bytes} (h : Unexpired env w)
    (hundo : undoLogs env c args = rollbackSetMembers env key members)
    (hdata : (w.db.slot key).data = some (.set s)) (hs : s ≠ ∅)
    (hfinal : ∀ k, (final ((command env c).executor args) w).db.slot k =
      if k = key then setSlot x (w.db.slot key).ttl else w.db.slot k)
    (hsame : ∀ y ∉ members, y ∈ x ↔ y ∈ s) (hsub : s ⊆ x ∨ x ⊆ s) (hkept : x = ∅ → (w.db.slot key).ttl = none)
    (hafter : Unexpired env (final ((command env c).executor args) w)) : TakenBack env c args w := by
  have hat : SetAt env w key (some s) := ⟨hdata, h.fresh key⟩
  have hlines : Runs (undoLogs env c args) w (members.map (memberLine key s)) w :=
    hundo ▸ rollbackSetMembers_runs hat members
  refine ⟨_, hlines, fun v hv => ?_⟩
  have hback := hv key
  rw [hfinal, if_pos rfl] at hback
  obtain ⟨ttl, hslot, httl, hfresh, hnonempty⟩ : ∃ ttl, v.db.slot key = setSlot x ttl ∧
      (ttl = (w.db.slot key).ttl ∨ ttl = (w.db.slot key).ttl.map replayed) ∧
      (∀ t, ttl = some t → env.now ≤ t) ∧ (ttl = none ∨ x ≠ ∅ ∧ (s ⊆ x ∨ x ⊆ s)) := by
    by_cases hx : x = ∅
    · have hempty : v.db.slot key = setSlot x none := by
        rw [setSlot, if_pos hx] at hback ⊢
        exact hback.eq_empty
      exact ⟨none, hempty, .inl (hkept hx).symm, fun t ht => absurd ht.symm (Option.some_ne_none t), .inl rfl⟩
    · rw [setSlot_of_nonempty hx] at hback
      have hexpired := hv.fresh hafter key
      refine ⟨(v.db.slot key).ttl, ?_, hback.2, fun t ht => ?_, .inr ⟨hx, hsub⟩⟩
      · have hset : (v.db.slot key).data = some (.set x) := hback.1
        rw [setSlot_of_nonempty hx, ← hset]
      · rw [Slot.isExpired, ht] at hexpired
        simpa using hexpired
  have hfold : members.foldl (restoreMember s) x = s := by
    ext y
    rw [mem_restoreMembers]
    split
    · rfl
    · next hy => exact hsame y hy
  obtain ⟨v', hrun, hslots⟩ := memberLines_undo hs hslot hfresh hnonempty members
  refine ⟨v', hrun, fun k => ?_⟩
  rw [hslots]
  dsimp only
  split
  · next hk =>
      rw [hfold, setSlot_of_nonempty hs, hk]
      exact ⟨hdata.symm, httl⟩
  · next hk =>
      have hother := hv k
      rwa [hfinal, if_neg hk] at hother

omit [LinearOrder σ] [Inhabited σ] in
theorem subset_addMembers (s : Finset Bytes) (members : List Bytes) : s ⊆ (addMembers s members).1 :=
  fun x hx => (addMembers_fst s members x).mpr (.inr hx)

omit [LinearOrder σ] [Inhabited σ] in
theorem removeMembers_subset (s : Finset Bytes) (members : List Bytes) : (removeMembers s members).1 ⊆ s :=
  fun x hx => ((removeMembers_fst s members x).mp hx).1

theorem sadd_takenBack {s : Finset Bytes} {first : Slice} {members : List Slice} (h : Unexpired env w)
    (hdata : (w.db.slot (text first)).data = some (.set s)) (hs : s ≠ ∅)
    (hafter : Unexpired env (final (execSAdd env (first :: members)) w)) :
    TakenBack env .sAdd (first :: members) w := by
  have hat : SetAt env w (text first) (some s) := ⟨hdata, h.fresh _⟩
  have hsub := subset_addMembers s (members.map text)
  have hne : (addMembers s (members.map text)).1 ≠ ∅ := fun hnone => hs (Finset.subset_empty.mp (hnone ▸ hsub))
  refine members_takenBack h rfl hdata hs (fun k => ?_) (fun y hy => ?_) (.inl hsub) (fun hnone => absurd hnone hne)
    hafter
  · rw [setSlot_of_nonempty hne]
    exact execSAdd_slot hat members k
  · rw [addMembers_fst]
    exact or_iff_right hy

theorem srem_takenBack {s : Finset Bytes} {first : Slice} {members : List Slice} (h : Unexpired env w)
    (hdata : (w.db.slot (text first)).data = some (.set s)) (hs : s ≠ ∅)
    (hkept : (∀ x ∈ s, x ∈ members.map text) → (w.db.slot (text first)).ttl = none)
    (hafter : Unexpired env (final (execSRem env (first :: members)) w)) :
    TakenBack env .sRem (first :: members) w := by
  have hat : SetAt env w (text first) (some s) := ⟨hdata, h.fresh _⟩
  refine members_takenBack h rfl hdata hs (execSRem_slot hat members) (fun y hy => ?_)
    (.inr (removeMembers_subset s (members.map text))) (fun hnone => hkept fun x hx => ?_) hafter
  · rw [removeMembers_fst]
    exact and_iff_left hy
  · by_contra hmem
    exact Finset.notMem_empty x (hnone ▸ (removeMembers_fst s _ x).mpr ⟨hx, hmem⟩)

/-- Where the undo lines of a command bring back what it changes. -/
def Reversible (env : Env σ) (w : World σ) (args : List Slice) (c : CommandName) : Prop :=
  (command env c).undo = none ∨ c ∈ expirings ∨
    c ∈ wholeKeys ∧ (∀ key ∈ covered c args, Restorable (w.db.slot key).data) ∨
    c ∈ itemwise ∧ (∀ key ∈ (writeFirstKey args).1, (w.db.slot key).data = none) ∨
    ∃ first members s, args = first :: members ∧ (w.db.slot (text first)).data = some (.set s) ∧ s ≠ ∅ ∧
      (c = .sAdd ∨ c = .sRem ∧ ((∀ x ∈ s, x ∈ members.map text) → (w.db.slot (text first)).ttl = none))

theorem reversible_takenBack (h : Unexpired env w)
    (harity : validateArity (command env c).arity (name :: args) = true) (hreversible : Reversible env w args c)
    (hafter : Unexpired env (final ((command env c).executor args) w)) : TakenBack env c args w := by
  rcases hreversible with hread | hc | ⟨hc, hkeys⟩ | ⟨hc, hnone⟩ | ⟨first, members, s, rfl, hdata, hs, hc⟩
  · exact read_takenBack h hread
  · exact expiring_takenBack h hc harity hafter
  · obtain ⟨hundo, hwrites⟩ := wholeKeys_spec hc harity
    exact keys_takenBack h hundo hwrites hkeys hafter.whole
  · exact absent_takenBack h hc harity hnone hafter.whole
  · rcases hc with rfl | ⟨rfl, hkept⟩
    · exact sadd_takenBack h hdata hs hafter
    · exact srem_takenBack h hdata hs hkept hafter

def Admitted (env : Env σ) (line : CmdLine) (c : CommandName) (args : List Slice) : Prop :=
  ∃ name, line = name :: args ∧ cmdTable (toLower (text name)) = some c ∧
    validateArity (command env c).arity line = true

/-- Up to a line that is answered by an error, the undo lines of every line bring back what it changes,
and no key expires. The line that is answered by an error changes nothing. -/
def Undoable (env : Env σ) : List CmdLine → World σ → Prop
  | [], _ => True
  | line :: lines, w => Unexpired env w ∧ ∃ c args, Admitted env line c args ∧
      ∀ reply, value (execWithLock env line) w = some reply →
        if isErrorReply reply then ¬ Spoils env w args c
        else Reversible env w args c ∧ Undoable env lines (final (execWithLock env line) w)

omit [LinearOrder σ] [Inhabited σ] in
theorem Unexpired.eq_of_quiet (h : Unexpired env w) (hquiet : Quiet env w v) : v = w := by
  obtain ⟨haof, hversions, hslots⟩ := hquiet
  have hkept (key : Bytes) : w.db.SameAt v.db key := by
    rcases hslots key with hsame | hout
    · exact hsame
    · exact absurd (h.fresh key ▸ hout.1) Bool.false_ne_true
  have hdata : v.db.data = w.db.data := Finmap.ext_lookup fun key => (hkept key).1
  have httl : v.db.ttlMap = w.db.ttlMap := Finmap.ext_lookup fun key => (hkept key).2
  obtain ⟨⟨data, ttlMap, versionMap⟩, aof⟩ := v
  obtain rfl := hdata
  obtain rfl := httl
  obtain rfl := hversions
  obtain rfl := haof
  rfl

theorem getUndoLogs_undoLogs {line : CmdLine} (h : Admitted env line c args) :
    Transaction.getUndoLogs env line = undoLogs env c args := by
  obtain ⟨name, rfl, hc, -⟩ := h
  rw [Transaction.getUndoLogs, hc]
  rfl

theorem undoLogs_moves (env : Env σ) (c : CommandName) (args : List Slice) :
    Moves (Quiet env) (undoLogs env c args) := by
  cases hundo : (command env c).undo with
  | none =>
      rw [undoLogs, hundo]
      exact .pure _
  | some undo =>
      rw [undoLogs, hundo]
      exact undo_moves env args c undo hundo

/-- The undo lines of a block bring back what the block started from, the last line first. -/
theorem execLines_undone {lines : List CmdLine} {results : List Reply} {undos : List (List CmdLine)}
    {w' : World σ} (h : Undoable env lines w)
    (hrun : Runs (Transaction.execLines env lines) w (results, undos, true) w') (hv : Back w' v) :
    Unexpired env w ∧ ∃ v', Runs (Transaction.execUndo env undos.reverse.flatten) v ⟨⟩ v' ∧ Back w v' := by
  induction lines generalizing w results undos with
  | nil => exact absurd (congrArg (·.2.2) (Runs.pure_iff.mp hrun).1) (by simp)
  | cons line lines ih =>
      obtain ⟨hunexpired, c, args, hadmitted, hgood⟩ := h
      refine ⟨hunexpired, ?_⟩
      obtain ⟨undo, w₁, hundo, hrest⟩ := hrun.of_bind
      obtain ⟨result, w₂, hresult, hrest⟩ := hrest.of_bind
      rw [getUndoLogs_undoLogs hadmitted] at hundo
      obtain rfl : w₁ = w := hunexpired.eq_of_quiet (hundo.of_wp (undoLogs_moves env c args w))
      replace hgood := hgood result hresult.value
      have hline : execWithLock env line = (command env c).executor args := by
        obtain ⟨name, rfl, hc, harity⟩ := hadmitted
        exact execWithLock_line hc harity
      split at hrest
      · next herror =>
          -- the line that is answered by an error has no undo lines
          obtain ⟨heq, rfl⟩ := Runs.pure_iff.mp hrest
          cases heq
          rw [if_pos herror] at hgood
          rw [hline] at hresult
          have hkept : Kept env w₁ w' := hresult.of_wp ((command_clean_iff c args).mpr hgood) herror
          refine ⟨v, .pure _ v, fun key => ?_⟩
          rw [← hunexpired.slot_of_kept (hkept key)]
          exact hv key
      · next hsuccess =>
          obtain ⟨⟨results', undos', aborted⟩, w₃, hlines, hrest⟩ := hrest.of_bind
          obtain ⟨heq, rfl⟩ := Runs.pure_iff.mp hrest
          cases heq
          rw [if_neg hsuccess, hresult.final] at hgood
          obtain ⟨hreversible, hundoable⟩ := hgood
          obtain ⟨hafter, u, hlater, hu⟩ := ih hundoable hlines
          rw [hline] at hresult
          obtain ⟨name, rfl, hc, harity⟩ := hadmitted
          obtain ⟨lines', hruns, hback⟩ := reversible_takenBack hunexpired harity hreversible
            (hresult.final ▸ hafter)
          obtain ⟨rfl, -⟩ := hundo.unique hruns
          obtain ⟨v', hthis, hv'⟩ := hback u (hresult.final ▸ hu)
          refine ⟨v', ?_, hv'⟩
          rw [List.reverse_cons, List.flatten_append, List.flatten_singleton]
          exact execUndo_append hlater hthis

theorem execQueue_undone {lines : List CmdLine} (h : Undoable env lines w)
    (hvalue : value (Transaction.execQueue env lines) w = some none) :
    Back w (final (Transaction.execQueue env lines) w) := by
  obtain ⟨⟨results, undos, aborted⟩, w', hlines, hrest⟩ := (Runs.of_value hvalue).of_bind
  cases aborted with
  | false => exact absurd (Runs.pure_iff.mp hrest).1 nofun
  | true =>
      obtain ⟨-, v', hundo, hv'⟩ := execLines_undone h hlines fun key => .refl _
      obtain ⟨-, hfinal⟩ := hrest.unique (hundo.bind (.pure _ v'))
      exact hfinal ▸ hv'

end

def oldValue : World ℤ where
  db := {
    data := (∅ : Dict (Entity ℤ)).insert (bytes "k") (.str (some (bytes "old")))
    ttlMap := (∅ : Dict Int).insert (bytes "k") 1500000
    versionMap := fun _ => 0 }
  aof := []

theorem oldValue_slot (key : Bytes) :
    oldValue.db.slot key = if key = bytes "k" then ⟨some (.str (some (bytes "old"))), some 1500000⟩ else .empty := by
  by_cases hk : key = bytes "k"
  · subst hk
    rw [if_pos rfl, oldValue, DB.slot, Finmap.lookup_insert, Finmap.lookup_insert]
  · simp [hk, oldValue, DB.slot, Slot.empty]

theorem unexpired_of_one {e : Entity σ} {ttl : Option Int}
    (h : ∀ k, w.db.slot k = if k = key then ⟨some e, ttl⟩ else .empty)
    (hlasts : ∀ t, ttl = some t → env.now ≤ t ∧ env.now ≤ replayed t) : Unexpired env w := by
  constructor
  · intro k hnone
    rw [h] at hnone ⊢
    split at hnone
    · cases hnone
    · next hk => exact congrArg Slot.ttl (if_neg hk)
  · intro k t ht
    rw [h] at ht
    split at ht
    · exact hlasts t ht
    · cases ht

theorem setValue_slot (k : Bytes) :
    (final (execSet (.plain 0) [some (bytes "k"), some (bytes "v")]) oldValue).db.slot k =
      if k = bytes "k" then ⟨some (.str (some (bytes "v"))), none⟩ else .empty := by
  rw [execSet_final]
  by_cases hk : k = bytes "k" <;> simp [setOptions, Policy.allows, hk, text, oldValue_slot]

def settingBlock : Transaction.Connection :=
  { Transaction.newConn with
    multiState := true
    queue := [["SET", "k", "v"], ["INCR", "k"]].map (·.map fun word => some (bytes word))
    stage := .committing }

end Traitor.Database
