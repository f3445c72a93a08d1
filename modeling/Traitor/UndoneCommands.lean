import Traitor.Edits
import Traitor.LazyExpiry
import Traitor.Rewrite
import Traitor.SetUndo

namespace Traitor.Database

open Lib.Effects Lib.Strconv Protocol

variable {σ : Type} {env : Env σ} {v w : World σ} {key : Bytes}

section

variable (env)

theorem modifyDB_neverPanics (f : DB σ → DB σ) : NeverPanics (modifyDB f) := fun w => ⟨_, _, modifyDB_runs f w⟩

theorem addAof_neverPanics (line : CmdLine) : NeverPanics (addAof line : Exec σ PUnit) :=
  fun w => ⟨_, _, addAof_runs line w⟩

theorem getEntity_neverPanics (key : Bytes) : NeverPanics (getEntity env key) :=
  .of_wp fun w => by rw [wp_getEntity]

theorem getAs_neverPanics {α : Type} (view : Entity σ → Option α) (key : Bytes) :
    NeverPanics (getAs env view key) :=
  .of_wp fun w => by rw [wp_getAs]

theorem getOrInit_neverPanics {α : Type} (view : Entity σ → Option α) (entity : α → Entity σ) (make : α)
    (key : Bytes) : NeverPanics (getOrInit env view entity make key) := by
  apply (getAs_neverPanics env view key).bind
  intro r
  split
  · exact .pure _
  · exact .pure _
  · exact (modifyDB_neverPanics _).bind fun _ => .pure _

theorem removes_neverPanics (keys : List Bytes) : NeverPanics (removes keys : Exec σ Int) :=
  fun w => by
    obtain ⟨n, hn, -⟩ := (wp_iff _ _ _).mp (wp_removes keys w)
    exact ⟨n, _, .of_value hn⟩

theorem execDel_neverPanics (args : List Slice) : NeverPanics (execDel args : Exec σ Reply) := by
  apply (removes_neverPanics _).bind
  intro n
  split
  · exact (addAof_neverPanics _).bind fun _ => .pure _
  · exact .pure _

theorem execSet_neverPanics (key value : Slice) : NeverPanics (execSet env [key, value]) :=
  .of_wp fun w => (wp_iff _ _ w).mpr (execSet_value rfl w)

theorem execHMSet_neverPanics (args : List Slice) : NeverPanics (execHMSet env args) := by
  unfold execHMSet
  split
  · split
    · exact .pure _
    · apply (getOrInit_neverPanics env _ _ _ _).bind
      intro r
      split
      · exact .pure _
      · exact (modifyDB_neverPanics _).bind fun _ => (addAof_neverPanics _).bind fun _ => .pure _
  · exact .pure _

theorem expireCommand_neverPanics (instant : Int → Int) (key rawTime : Slice) :
    NeverPanics (expireCommand env instant [key, rawTime]) := by
  simp only [expireCommand]
  split
  · exact .pure _
  · apply (getEntity_neverPanics env _).bind
    intro r
    split
    · exact .pure _
    · exact (modifyDB_neverPanics _).bind fun _ => (addAof_neverPanics _).bind fun _ => .pure _

theorem execPersist_neverPanics (key : Slice) : NeverPanics (execPersist env [key]) := by
  apply (getEntity_neverPanics env _).bind
  intro r
  split
  · exact .pure _
  · refine NeverPanics.bind (fun w => ⟨_, _, .of_value rfl⟩) fun ttl => ?_
    split
    · exact .pure _
    · exact (modifyDB_neverPanics _).bind fun _ => (addAof_neverPanics _).bind fun _ => .pure _

theorem execSAdd_neverPanics (key : Slice) (members : List Slice) :
    NeverPanics (execSAdd env (key :: members)) := by
  apply (getOrInit_neverPanics env _ _ _ _).bind
  intro r
  split
  · exact .pure _
  · exact (modifyDB_neverPanics _).bind fun _ => (addAof_neverPanics _).bind fun _ => .pure _

theorem execSRem_neverPanics (key : Slice) (members : List Slice) :
    NeverPanics (execSRem env (key :: members)) := by
  apply (getAs_neverPanics env _ _).bind
  intro r
  split
  · exact .pure _
  · exact .pure _
  · apply (modifyDB_neverPanics _).bind
    intro _
    split
    · split
      · exact (modifyDB_neverPanics _).bind fun _ => (addAof_neverPanics _).bind fun _ => .pure _
      · exact (addAof_neverPanics _).bind fun _ => .pure _
    · split
      · exact (modifyDB_neverPanics _).bind fun _ => .pure _
      · exact .pure _

end

section

variable [LinearOrder σ] [Inhabited σ]

def Turns (env : Env σ) (line : CmdLine) (key : Bytes) (v : World σ) (s : Slot σ) : Prop :=
  ∃ reply v', Runs (execWithLock env line) v reply v' ∧
    ∀ k, v'.db.slot k = if k = key then s else v.db.slot k

theorem Turns.of_final {c : CommandName} {name : Slice} {args : List Slice} {s : Slot σ}
    (hc : cmdTable (toLower (text name)) = some c)
    (harity : validateArity (command env c).arity (name :: args) = true)
    (hnever : NeverPanics ((command env c).executor args))
    (hfinal : ∀ k, (final ((command env c).executor args) v).db.slot k = if k = key then s else v.db.slot k) :
    Turns env (name :: args) key v s := by
  obtain ⟨reply, hrun⟩ := hnever.runs v
  exact ⟨reply, _, execWithLock_line hc harity ▸ hrun, hfinal⟩

theorem del_turns (h : v.db.Whole) : Turns env (cmdLine "DEL" [key]) key v .empty := by
  refine .of_final (c := .del) rfl rfl (execDel_neverPanics _) fun k => ?_
  change (final (execDel [some key]) v).db.slot k = _
  rw [(execDel_final [some key] v).1, removes_slot h]
  simp [text]

theorem set_turns (s : Slice) : Turns env (cmdLine3 "SET" [some key, s]) key v ⟨some (.str s), none⟩ := by
  refine .of_final (c := .set) rfl rfl (execSet_neverPanics env _ _) fun k => ?_
  change (final (execSet env [some key, s]) v).db.slot k = _
  rw [execSet_final]
  by_cases hk : k = key <;> simp [setOptions, Policy.allows, hk, text]

theorem hmset_turns {rest : List Slice} (heven : rest.length % 2 = 0) (hne : rest ≠ [])
    (hv : v.db.slot key = .empty) :
    Turns env (cmdLine3 "HMSET" (some key :: rest)) key v
      ⟨some (.hash (putFields ∅ (fieldPairs rest))), none⟩ := by
  have hlength : 0 < rest.length := List.length_pos_iff.mpr hne
  have harity : validateArity (command env .hMSet).arity (cmdLine3 "HMSET" (some key :: rest)) = true := by
    simp [validateArity, command, cmdLine3]
    omega
  exact .of_final (c := .hMSet) rfl harity (execHMSet_neverPanics env (some key :: rest))
    (execHMSet_final heven hv)

/-- A key that is live loses its expiration, and one that is not there stays so. -/
theorem persist_turns (h : (v.db.slot key).Whole) (hfresh : (v.db.slot key).isExpired env.now = false) :
    Turns env (cmdLine "PERSIST" [key]) key v ⟨(v.db.slot key).data, none⟩ := by
  refine .of_final (c := .persist) rfl rfl (execPersist_neverPanics env _) fun k => ?_
  have hlive : (v.db.slot key).live env.now = (v.db.slot key).data := by
    rw [Slot.live, hfresh, if_neg Bool.false_ne_true]
  have hevict : (v.db.slot key).evict env.now = v.db.slot key := by
    rw [Slot.evict, hfresh]
    exact if_neg (by simp)
  have httl : ((v.db.evict env key).slot key).ttl = (v.db.slot key).ttl := by simp [hevict]
  change (final (execPersist env [some key]) v).db.slot k = _
  rw [execPersist_final]
  have htext : text (some key) = key := rfl
  by_cases hkept : (v.db.slot key).live env.now = none ∨ ((v.db.evict env key).slot key).ttl = none
  · have hnone : (v.db.slot key).ttl = none := by
      rw [hlive, httl] at hkept
      exact hkept.elim h id
    have hslot : v.db.slot key = ⟨(v.db.slot key).data, none⟩ := by rw [← hnone]
    rw [htext, if_pos hkept]
    by_cases hk : k = key
    · rw [hk, if_pos rfl, DB.slot_evict, if_pos rfl, hevict]
      exact hslot
    · simp [hk]
  · rw [htext, if_neg hkept]
    by_cases hk : k = key <;> simp [hk, hevict]

theorem pexpireat_turns (t : Int) (hlive : (v.db.slot key).live env.now ≠ none) :
    Turns env (makeExpireCmd key t) key v ⟨(v.db.slot key).data, some (replayed t)⟩ := by
  refine .of_final (c := .pExpireAt) rfl rfl (expireCommand_neverPanics env _ _ _) fun k => ?_
  change (final (expireCommand env _ [some key, some (formatInt ((unixNano t).tdiv millisecond))]) v).db.slot k = _
  rw [expireCommand_final]
  simp only [text, Option.getD_some, parseInt_unixNano]
  by_cases hk : k = key
  · simp [hk, hlive, Slot.evict_of_live hlive, replayed]
  · simp [hk, hlive]

def Undoes (env : Env σ) (lines : List CmdLine) (v : World σ) (target : Bytes → Slot σ) : Prop :=
  ∃ v', Runs (Transaction.execUndo env lines) v ⟨⟩ v' ∧ ∀ k, v'.db.slot k = target k

theorem Undoes.cons {line : CmdLine} {lines : List CmdLine} {s : Slot σ} {target : Bytes → Slot σ}
    (h : Turns env line key v s)
    (hlines : ∀ v', (∀ k, v'.db.slot k = if k = key then s else v.db.slot k) → Undoes env lines v' target) :
    Undoes env (line :: lines) v target := by
  obtain ⟨reply, v', hrun, hslots⟩ := h
  obtain ⟨v'', hruns, htarget⟩ := hlines v' hslots
  exact ⟨v'', hrun.bind hruns, htarget⟩

theorem Undoes.single {line : CmdLine} {s : Slot σ} (h : Turns env line key v s) :
    Undoes env [line] v fun k => if k = key then s else v.db.slot k :=
  .cons h fun v' hv' => ⟨v', .pure _ v', hv'⟩

theorem execUndo_append {lines lines' : List CmdLine} {u t : World σ}
    (h : Runs (Transaction.execUndo env lines) v ⟨⟩ u) (h' : Runs (Transaction.execUndo env lines') u ⟨⟩ t) :
    Runs (Transaction.execUndo env (lines ++ lines')) v ⟨⟩ t := by
  induction lines generalizing v with
  | nil =>
      obtain ⟨-, rfl⟩ := Runs.pure_iff.mp h
      exact h'
  | cons line lines ih =>
      obtain ⟨reply, v', hline, hrest⟩ := h.of_bind
      exact hline.bind (ih hrest)

theorem Undoes.append {lines lines' : List CmdLine} {between target : Bytes → Slot σ}
    (h : Undoes env lines v between)
    (h' : ∀ v', (∀ k, v'.db.slot k = between k) → Undoes env lines' v' target) :
    Undoes env (lines ++ lines') v target := by
  obtain ⟨v', hrun, hbetween⟩ := h
  obtain ⟨v'', hrun', htarget⟩ := h' v' hbetween
  exact ⟨v'', execUndo_append hrun hrun', htarget⟩

def Slot.restored (s : Slot σ) : Slot σ := ⟨s.data, s.ttl.map replayed⟩

def Restorable : Option (Entity σ) → Prop
  | none | some (.str _) => True
  | some (.hash d) => d.keys.card ≠ 0 ∧ ∀ f v, d.lookup f = some v → ∃ s, v = .slice s
  | some _ => False

def ttlLine (key : Bytes) : Option Int → CmdLine
  | none => cmdLine "PERSIST" [key]
  | some t => makeExpireCmd key t

def keyLines (env : Env σ) (key : Bytes) (s : Slot σ) : List CmdLine :=
  match s.data with
  | none => [cmdLine "DEL" [key]]
  | some e => cmdLine "DEL" [key] :: ((entityToCmd env key e).toList ++ [ttlLine key s.ttl])

omit [LinearOrder σ] [Inhabited σ] in
theorem putFields_valueOf (env : Env σ) {d : Dict HashValue} (h : ∀ f v, d.lookup f = some v → ∃ s, v = .slice s) :
    putFields ∅ (fieldPairs ((env.choices.order d.keys).flatMap fun f => [some f, valueOf d f])) = d := by
  rw [fieldPairs_flatMap]
  apply Finmap.ext_lookup
  intro f
  have hmem : f ∈ env.choices.order d.keys ↔ (d.lookup f).isSome := by
    rw [env.choices.mem_order, Finmap.mem_keys, Finmap.lookup_isSome]
  rw [lookup_putFields]
  simp only [hmem]
  cases hf : d.lookup f with
  | none => rfl
  | some v =>
      obtain ⟨s, rfl⟩ := h f v hf
      simp [valueOf, hf, HashValue.bytes]

/-- The line for a value puts it under a key that is not there. -/
theorem entity_turns (env : Env σ) {e : Entity σ} (h : Restorable (some e)) (hv : v.db.slot key = .empty) :
    ∃ line, entityToCmd env key e = some line ∧ Turns env line key v ⟨some e, none⟩ := by
  cases e with
  | str s => exact ⟨_, rfl, set_turns s⟩
  | hash d =>
      obtain ⟨hcard, hslices⟩ := h
      let rest := (env.choices.order d.keys).flatMap fun f => [some f, valueOf d f]
      have hlength : rest.length = 2 * d.keys.card := by
        rw [← env.choices.length_order]
        simp [rest, Nat.mul_comm]
      have hne : rest ≠ [] := by
        intro hnil
        rw [hnil, List.length_nil] at hlength
        omega
      have hturns : Turns env (cmdLine3 "HMSET" (some key :: rest)) key v
          ⟨some (.hash (putFields ∅ (fieldPairs rest))), none⟩ := hmset_turns (by omega) hne hv
      rw [putFields_valueOf env hslices] at hturns
      exact ⟨_, rfl, hturns⟩
  | list l => exact h.elim
  | set s => exact h.elim
  | zset z => exact h.elim

/-- The line for an expiration sets it under a key that is there and not expired. -/
theorem ttl_turns (hlive : (v.db.slot key).live env.now ≠ none) (ttl : Option Int) :
    Turns env (ttlLine key ttl) key v ⟨(v.db.slot key).data, ttl.map replayed⟩ := by
  cases ttl with
  | none =>
      refine persist_turns (fun hnone => ?_) ?_
      · rw [Slot.live, hnone, ite_self] at hlive
        exact absurd rfl hlive
      · by_contra hexpired
        rw [Slot.live, if_pos (by simpa using hexpired)] at hlive
        exact hlive rfl
  | some t => exact pexpireat_turns t hlive

omit [LinearOrder σ] [Inhabited σ] in
theorem Slot.Whole.restored {s : Slot σ} (h : s.Whole) : s.restored.Whole := by
  intro hnone
  simp [Slot.restored, h hnone]

/-- The lines for a whole key bring it back, whatever has become of it. -/
theorem keyLines_undo {s : Slot σ} (hv : v.db.Whole) (hs : s.Whole) (h : Restorable s.data) :
    Undoes env (keyLines env key s) v fun k => if k = key then s.restored else v.db.slot k := by
  obtain ⟨data, ttl⟩ := s
  cases data with
  | none =>
      obtain rfl : ttl = none := hs rfl
      exact .single (del_turns hv)
  | some e =>
      refine .cons (del_turns hv) fun v₁ h₁ => ?_
      have hempty : v₁.db.slot key = .empty := (h₁ key).trans (if_pos rfl)
      obtain ⟨line, hline, hturns⟩ := entity_turns env h hempty
      rw [hline]
      refine .cons hturns fun v₂ h₂ => ?_
      have hslot : v₂.db.slot key = ⟨some e, none⟩ := (h₂ key).trans (if_pos rfl)
      have hlive : (v₂.db.slot key).live env.now ≠ none := by
        simp [hslot, Slot.live, Slot.isExpired]
      refine .cons (ttl_turns hlive ttl) fun v₃ h₃ => ⟨v₃, .pure _ v₃, fun k => ?_⟩
      by_cases hk : k = key
      · rw [h₃, if_pos hk, hslot]
        exact (if_pos hk).symm
      · rw [h₃, if_neg hk, h₂, if_neg hk, h₁, if_neg hk]
        exact (if_neg hk).symm

/-- No key is expired, not even if its expiration is cut to milliseconds. -/
structure Unexpired (env : Env σ) (w : World σ) : Prop where
  whole : w.db.Whole
  lasts : ∀ key t, (w.db.slot key).ttl = some t → env.now ≤ t ∧ env.now ≤ replayed t

omit [LinearOrder σ] [Inhabited σ] in
theorem isExpired_of_lasts {s : Slot σ} {now : Int} (h : ∀ t, s.ttl = some t → now ≤ t) :
    s.isExpired now = false := by
  rw [Slot.isExpired, Option.any_eq_false]
  intro t ht
  simpa using h t ht

omit [LinearOrder σ] [Inhabited σ] in
theorem Unexpired.fresh (h : Unexpired env w) (key : Bytes) : w.db.isExpired env key = false := by
  rw [DB.isExpired_slot]
  exact isExpired_of_lasts fun t ht => (h.lasts key t ht).1

omit [LinearOrder σ] [Inhabited σ] in
theorem Unexpired.live (h : Unexpired env w) (key : Bytes) : w.db.live env key = (w.db.slot key).data := by
  rw [DB.live, h.fresh, if_neg Bool.false_ne_true]
  rfl

omit [LinearOrder σ] [Inhabited σ] in
theorem Unexpired.slot_of_kept (h : Unexpired env w)
    (hkept : w.db.SameAt v.db key ∨ w.db.Evicted env v.db key) : v.db.slot key = w.db.slot key := by
  rcases hkept with hsame | hout
  · rw [DB.slot, hsame.1, hsame.2]
    rfl
  · have hexpired := hout.1
    rw [h.fresh] at hexpired
    exact absurd hexpired Bool.false_ne_true

omit [LinearOrder σ] [Inhabited σ] in
theorem Unexpired.empty_of_none (h : Unexpired env w) (hnone : (w.db.slot key).data = none) :
    w.db.slot key = .empty := by
  have httl := h.whole key hnone
  cases hs : w.db.slot key with
  | mk data ttl =>
      rw [hs] at hnone httl
      obtain rfl := hnone
      obtain rfl := httl
      rfl

omit [LinearOrder σ] [Inhabited σ] in
theorem Unexpired.evict_eq (h : Unexpired env w) (key : Bytes) : w.db.evict env key = w.db := by
  rw [DB.evict, h.fresh]
  exact if_neg (by simp)

omit [LinearOrder σ] [Inhabited σ] in
theorem Unexpired.getEntity_runs (h : Unexpired env w) (key : Bytes) :
    Runs (getEntity env key) w (w.db.slot key).data w := by
  have hwp : wp (getEntity env key) (fun r v => r = some (w.db.slot key).data ∧ v = w) w := by
    rw [wp_getEntity, h.live, h.evict_eq]
    exact ⟨rfl, rfl⟩
  obtain ⟨hvalue, hfinal⟩ := (wp_iff _ _ _).mp hwp
  have hrun := Runs.of_value hvalue
  rwa [hfinal] at hrun

theorem tdiv_millisecond (n : Int) : (n.tdiv 1000).tdiv 1000 = n.tdiv millisecond := by
  rw [millisecond]
  rcases Int.le_total 0 n with hpos | hneg
  · rw [Int.tdiv_eq_ediv_of_nonneg hpos, Int.tdiv_eq_ediv_of_nonneg (by omega),
      Int.tdiv_eq_ediv_of_nonneg hpos]
    omega
  · obtain ⟨m, rfl⟩ : ∃ m, n = -m := ⟨-n, by omega⟩
    have hpos : 0 ≤ m := by omega
    rw [Int.neg_tdiv, Int.tdiv_eq_ediv_of_nonneg hpos, Int.neg_tdiv, Int.tdiv_eq_ediv_of_nonneg (by omega),
      Int.neg_tdiv, Int.tdiv_eq_ediv_of_nonneg hpos]
    omega

omit [LinearOrder σ] [Inhabited σ] in
theorem toTTLCmd_runs (key : Bytes) (w : World σ) :
    Runs (toTTLCmd key) w (ttlLine key (w.db.slot key).ttl) w := by
  have hget : Runs (getTTL key) w (w.db.slot key).ttl w := rfl
  apply hget.bind
  cases (w.db.slot key).ttl with
  | none => exact .pure _ w
  | some t =>
      rw [ttlLine, makeExpireCmd, ← tdiv_millisecond]
      exact .pure _ w

omit [LinearOrder σ] [Inhabited σ] in
theorem rollbackGivenKeys_runs (h : Unexpired env w) {keys : List Bytes}
    (hkeys : ∀ key ∈ keys, Restorable (w.db.slot key).data) :
    Runs (rollbackGivenKeys env keys) w (keys.flatMap fun key => keyLines env key (w.db.slot key)) w := by
  induction keys with
  | nil => exact .pure _ w
  | cons key keys ih =>
      obtain ⟨hkey, hkeys⟩ := List.forall_mem_cons.mp hkeys
      rw [rollbackGivenKeys, List.flatMap_cons, keyLines]
      apply (h.getEntity_runs key).bind
      cases hdata : (w.db.slot key).data with
      | none => exact (ih hkeys).bind (.pure _ w)
      | some e =>
          rw [hdata] at hkey
          have hline : ∃ line, entityToCmd env key e = some line := by
            cases e with
            | str s => exact ⟨_, rfl⟩
            | hash d => exact ⟨_, rfl⟩
            | list l => exact hkey.elim
            | set s => exact hkey.elim
            | zset z => exact hkey.elim
          obtain ⟨line, hline⟩ := hline
          simp only [hline]
          exact (toTTLCmd_runs key w).bind ((ih hkeys).bind (.pure _ w))

/-- The lines for whole keys bring all of them back. -/
theorem rollbackGivenKeys_undo (hw : w.db.Whole) {keys : List Bytes}
    (hkeys : ∀ key ∈ keys, Restorable (w.db.slot key).data) (hv : v.db.Whole) :
    Undoes env (keys.flatMap fun key => keyLines env key (w.db.slot key)) v fun k =>
      if k ∈ keys then (w.db.slot k).restored else v.db.slot k := by
  induction keys generalizing v with
  | nil => exact ⟨v, .pure _ v, fun k => by simp⟩
  | cons key keys ih =>
      obtain ⟨hkey, hkeys⟩ := List.forall_mem_cons.mp hkeys
      rw [List.flatMap_cons]
      refine (keyLines_undo hv (hw key) hkey).append fun v' hv' => ?_
      have hwhole : v'.db.Whole := by
        intro k
        rw [hv']
        split
        · exact (hw key).restored
        · exact hv k
      obtain ⟨u, hrun, hu⟩ := ih hkeys hwhole
      refine ⟨u, hrun, fun k => ?_⟩
      rw [hu]
      dsimp only
      rw [hv']
      by_cases hk : k = key
      · subst hk
        simp
      · simp [hk]

omit [LinearOrder σ] [Inhabited σ] in
theorem SetAt.evict_eq {held : Option (Finset Bytes)} (h : SetAt env v key held) : v.db.evict env key = v.db := by
  rw [DB.evict, h.fresh]
  exact if_neg (by simp)

/-- A set as it is stored: an empty one is removed, with its expiration. -/
def setSlot (s : Finset Bytes) (ttl : Option Int) : Slot σ := if s = ∅ then .empty else ⟨some (.set s), ttl⟩

omit [LinearOrder σ] [Inhabited σ] in
theorem setSlot_of_nonempty {s : Finset Bytes} (h : s ≠ ∅) (ttl : Option Int) :
    setSlot s ttl = (⟨some (.set s), ttl⟩ : Slot σ) := if_neg h

section

variable {first : Slice} {x : Finset Bytes} {ttl : Option Int}

omit [LinearOrder σ] [Inhabited σ] in
/-- What `SADD` leaves under its key. -/
theorem execSAdd_slot {held : Option (Finset Bytes)} (h : SetAt env v (text first) held) (members : List Slice)
    (k : Bytes) :
    (final (execSAdd env (first :: members)) v).db.slot k =
      if k = text first then
        ⟨some (.set (addMembers (membersOf held) (members.map text)).1), (v.db.slot (text first)).ttl⟩
      else v.db.slot k := by
  refine (wp_iff _ (fun _ w' => w'.db.slot k = if k = text first then
    ⟨some (.set (addMembers (membersOf held) (members.map text)).1), (v.db.slot (text first)).ttl⟩
    else v.db.slot k) v).mp ?_
  simp only [execSAdd, getOrInitSet, getOrInit, wp_bind, wp_getAs, h.view, h.evict_eq]
  cases held with
  | none => by_cases hk : k = text first <;> simp [hk, membersOf, makeSet, setSet, putEntity]
  | some s => by_cases hk : k = text first <;> simp [hk, membersOf, setSet, putEntity]

omit [LinearOrder σ] [Inhabited σ] in
/-- What `SREM` leaves under its key. -/
theorem execSRem_slot (h : SetAt env v (text first) (some x)) (members : List Slice) (k : Bytes) :
    (final (execSRem env (first :: members)) v).db.slot k =
      if k = text first then setSlot (removeMembers x (members.map text)).1 (v.db.slot (text first)).ttl
      else v.db.slot k := by
  refine (wp_iff _ (fun _ w' => w'.db.slot k = if k = text first then
    setSlot (removeMembers x (members.map text)).1 (v.db.slot (text first)).ttl else v.db.slot k) v).mp ?_
  simp only [execSRem, getAsSet, wp_bind, wp_getAs, h.view, h.evict_eq, setSlot, Finset.card_eq_zero]
  by_cases hempty : (removeMembers x (members.map text)).1 = ∅
  · by_cases hcount : 0 < (removeMembers x (members.map text)).2
    · by_cases hk : k = text first <;> simp [hempty, hcount, hk, setSet, putEntity, remove]
    · by_cases hk : k = text first <;> simp [hempty, hcount, hk, setSet, putEntity, remove]
  · by_cases hcount : 0 < (removeMembers x (members.map text)).2
    · by_cases hk : k = text first <;> simp [hempty, hcount, hk, setSet, putEntity]
    · by_cases hk : k = text first <;> simp [hempty, hcount, hk, setSet, putEntity]

omit [LinearOrder σ] [Inhabited σ] in
theorem execSRem_none (h : SetAt env v (text first) none) (members : List Slice) :
    final (execSRem env (first :: members)) v = v := by
  refine (wp_iff _ (fun _ w' => w' = v) v).mp ?_
  simp only [execSRem, getAsSet, wp_bind, wp_getAs, h.view, h.evict_eq, wp_pure]

def memberLine (key : Bytes) (s : Finset Bytes) (member : Bytes) : CmdLine :=
  if member ∈ s then cmdLine "SADD" [key, member] else cmdLine "SREM" [key, member]

def restoreMember (s x : Finset Bytes) (member : Bytes) : Finset Bytes :=
  if member ∈ s then insert member x else x.erase member

theorem mem_restoreMembers (s x : Finset Bytes) (members : List Bytes) (y : Bytes) :
    y ∈ members.foldl (restoreMember s) x ↔ if y ∈ members then y ∈ s else y ∈ x := by
  induction members generalizing x with
  | nil => simp
  | cons member members ih =>
      rw [List.foldl_cons, ih]
      by_cases hmem : y ∈ members
      · simp [hmem]
      · by_cases hy : y = member
        · subst hy
          by_cases hs : y ∈ s <;> simp [hmem, restoreMember, hs]
        · by_cases hs : member ∈ s <;> simp [hmem, hy, restoreMember, hs]

omit [LinearOrder σ] [Inhabited σ] in
theorem setAt_of_setSlot (hslot : v.db.slot key = setSlot x ttl) (hfresh : ∀ t, ttl = some t → env.now ≤ t) :
    SetAt env v key (if x = ∅ then none else some x) := by
  constructor
  · change (v.db.slot key).data = _
    rw [hslot, setSlot]
    split <;> rfl
  · rw [DB.isExpired_slot, hslot, setSlot]
    split
    · rfl
    · exact isExpired_of_lasts hfresh

theorem sadd_turns (hslot : v.db.slot key = setSlot x ttl) (hfresh : ∀ t, ttl = some t → env.now ≤ t)
    (hkept : x = ∅ → ttl = none) (member : Bytes) :
    Turns env (cmdLine "SADD" [key, member]) key v (setSlot (insert member x) ttl) := by
  have hat : SetAt env v (text (some key)) (if x = ∅ then none else some x) := setAt_of_setSlot hslot hfresh
  refine .of_final (c := .sAdd) (by decide) rfl (execSAdd_neverPanics env (some key) [some member]) fun k => ?_
  change (final (execSAdd env [some key, some member]) v).db.slot k = _
  rw [execSAdd_slot hat, setSlot_of_nonempty (Finset.insert_ne_empty member x)]
  by_cases hx : x = ∅
  · subst hx
    have httl : (v.db.slot key).ttl = ttl := by
      rw [hslot, hkept rfl]
      rfl
    simp only [if_true, text, Option.getD_some, httl]
    rfl
  · have httl : (v.db.slot key).ttl = ttl := by rw [hslot, setSlot_of_nonempty hx]
    simp only [hx, if_false, text, Option.getD_some, httl]
    rfl

theorem srem_turns (hslot : v.db.slot key = setSlot x ttl) (hfresh : ∀ t, ttl = some t → env.now ≤ t)
    (member : Bytes) : Turns env (cmdLine "SREM" [key, member]) key v (setSlot (x.erase member) ttl) := by
  have hat : SetAt env v (text (some key)) (if x = ∅ then none else some x) := setAt_of_setSlot hslot hfresh
  refine .of_final (c := .sRem) (by decide) rfl (execSRem_neverPanics env (some key) [some member]) fun k => ?_
  change (final (execSRem env [some key, some member]) v).db.slot k = _
  by_cases hx : x = ∅
  · subst hx
    rw [if_pos rfl] at hat
    rw [execSRem_none hat]
    split
    · next hk => rw [hk, hslot, Finset.erase_empty]
    · rfl
  · have httl : (v.db.slot key).ttl = ttl := by rw [hslot, setSlot_of_nonempty hx]
    rw [if_neg hx] at hat
    rw [execSRem_slot hat]
    simp only [text, Option.getD_some, httl]
    rfl

theorem memberLine_turns (hslot : v.db.slot key = setSlot x ttl) (hfresh : ∀ t, ttl = some t → env.now ≤ t)
    (hkept : x = ∅ → ttl = none) (s : Finset Bytes) (member : Bytes) :
    Turns env (memberLine key s member) key v (setSlot (restoreMember s x member) ttl) := by
  by_cases hs : member ∈ s
  · rw [memberLine, if_pos hs, restoreMember, if_pos hs]
    exact sadd_turns hslot hfresh hkept member
  · rw [memberLine, if_neg hs, restoreMember, if_neg hs]
    exact srem_turns hslot hfresh member

/-- The lines for members restore these, and lose no expiration on the way: the set does not get empty. -/
theorem memberLines_undo {s : Finset Bytes} (hs : s ≠ ∅) (hslot : v.db.slot key = setSlot x ttl)
    (hfresh : ∀ t, ttl = some t → env.now ≤ t) (hkept : ttl = none ∨ x ≠ ∅ ∧ (s ⊆ x ∨ x ⊆ s))
    (members : List Bytes) :
    Undoes env (members.map (memberLine key s)) v fun k =>
      if k = key then setSlot (members.foldl (restoreMember s) x) ttl else v.db.slot k := by
  induction members generalizing v x with
  | nil =>
      refine ⟨v, .pure _ v, fun k => ?_⟩
      dsimp only [List.foldl_nil]
      split
      · next hk => rw [hk, hslot]
      · rfl
  | cons member members ih =>
      have hempty : x = ∅ → ttl = none := fun hx => hkept.resolve_right fun h => h.1 hx
      have hkept' : ttl = none ∨ restoreMember s x member ≠ ∅ ∧
          (s ⊆ restoreMember s x member ∨ restoreMember s x member ⊆ s) := by
        refine hkept.imp_right fun ⟨hx, hsub⟩ => ?_
        by_cases hmem : member ∈ s
        · rw [restoreMember, if_pos hmem]
          refine ⟨Finset.insert_ne_empty member x, hsub.imp (·.trans (Finset.subset_insert member x)) fun h => ?_⟩
          exact Finset.insert_subset hmem h
        · rw [restoreMember, if_neg hmem]
          rcases hsub with hsub | hsub
          · have herase : s ⊆ x.erase member := Finset.subset_erase.mpr ⟨hsub, hmem⟩
            exact ⟨fun hnone => hs (Finset.subset_empty.mp (hnone ▸ herase)), .inl herase⟩
          · rw [Finset.erase_eq_of_notMem fun h => hmem (hsub h)]
            exact ⟨hx, .inr hsub⟩
      refine .cons (memberLine_turns hslot hfresh hempty s member) fun v' hv' => ?_
      obtain ⟨u, hrun, hu⟩ := ih ((hv' key).trans (if_pos rfl)) hkept'
      refine ⟨u, hrun, fun k => ?_⟩
      rw [hu]
      dsimp only
      split
      · rfl
      · next hk => rw [hv', if_neg hk]

end

end

end Traitor.Database
