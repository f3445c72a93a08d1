import Mathlib.Logic.Relation
import Traitor.Transaction
import Traitor.WriteSets

namespace Traitor.Transaction

open Database Lib.Effects Lib.Strconv Protocol

section

variable {σ : Type} {env : Env σ}

theorem prepareRename_source {args : List Slice} {key key' : Bytes}
    (h : key ∈ (prepareRename args).2) (h' : key' ∈ (prepareRename args).2) : key = key' := by
  unfold prepareRename at h h'
  split at h
  · simp only [List.mem_singleton] at h h'
    rw [h, h']
  · simp at h

theorem live_of_quiet {w w' : World σ} (h : Quiet env w w') (key : Bytes) :
    w'.db.live env key = w.db.live env key := DB.live_eq (h.2.2 key)

theorem execRename_live {args : List Slice} {w : World σ}
    (h : ∀ src ∈ (prepareRename args).2, w.db.live env src = none) (key : Bytes) :
    (final (execRename env args) w).db.live env key = w.db.live env key := by
  refine live_of_quiet ?_ key
  apply (wp_iff _ (fun _ w' => Quiet env w w') w).mp
  unfold execRename
  split
  · rename_i src dest
    have hsrc := h (text src) (by simp [prepareRename])
    rw [wp_bind, wp_getEntity, hsrc]
    exact ⟨rfl, DB.keeps_evict w.db _⟩
  · exact refl_of (Quiet env) w

theorem execRenameNx_live {args : List Slice} {w : World σ}
    (h : (∀ src ∈ (prepareRename args).2, w.db.live env src = none) ∨
      ∃ dest ∈ (prepareRename args).1, w.db.live env dest ≠ none) (key : Bytes) :
    (final (execRenameNx env args) w).db.live env key = w.db.live env key := by
  refine live_of_quiet ?_ key
  apply (wp_iff _ (fun _ w' => Quiet env w w') w).mp
  unfold execRenameNx
  split
  · rename_i src dest rest
    have hevict : w.db.Keeps env (w.db.evict env (text dest)) := w.db.keeps_evict (text dest)
    rw [wp_bind, wp_getEntity]
    cases hlive : w.db.live env (text dest) with
    | some entity => exact ⟨rfl, hevict⟩
    | none =>
        have hsrc : (w.db.evict env (text dest)).live env (text src) = none := by
          rw [DB.live_eq (hevict.2 _)]
          rcases h with hsrc | ⟨_, hmem, hdest⟩
          · exact hsrc _ (by simp [prepareRename])
          · simp only [prepareRename, List.mem_singleton] at hmem
            exact absurd hlive (hmem ▸ hdest)
        simp only [wp_bind, wp_getEntity, hsrc]
        exact ⟨rfl, hevict.trans (DB.keeps_evict _ _)⟩
  · exact refl_of (Quiet env) w

variable [LinearOrder σ] [Inhabited σ]

/-- The key is the source of a renaming that takes place, and not its destination. -/
def MovesAway (env : Env σ) (c : CommandName) (args : List Slice) (db : DB σ) (key : Bytes) : Prop :=
  key ∈ movedKeys c args ∧ key ∉ ((command env c).prepare args).1 ∧ db.live env key ≠ none ∧
    (c = .renameNx → ∀ dest ∈ (prepareRename args).1, db.live env dest = none)

/-- A command changes the value of a key that it does not declare only by moving it away. -/
theorem executor_live {c : CommandName} {args : List Slice} {w : World σ} {key : Bytes}
    (hwrite : key ∉ ((command env c).prepare args).1) (hmove : ¬ MovesAway env c args w.db key) :
    (final ((command env c).executor args) w).db.live env key = w.db.live env key := by
  by_cases hmem : key ∈ movedKeys c args
  · rw [MovesAway, not_and, not_and, not_and] at hmove
    have hstay := hmove hmem hwrite
    unfold movedKeys at hmem
    split at hmem
    · refine execRename_live (fun src hsrc => ?_) key
      obtain rfl := prepareRename_source hmem hsrc
      by_contra hlive
      exact hstay hlive fun he => nomatch he
    · refine execRenameNx_live ?_ key
      by_cases hlive : w.db.live env key = none
      · refine .inl fun src hsrc => ?_
        obtain rfl := prepareRename_source hmem hsrc
        exact hlive
      · exact .inr (by simpa using hstay hlive)
    · simp at hmem
  · refine DB.live_eq (((command_within c args).final w).2 key ?_)
    simp [hwrite, hmem]

/-- Only `addVersion` puts a version. -/
def SameVersions (w w' : World σ) : Prop := w'.db.versionMap = w.db.versionMap

omit [LinearOrder σ] [Inhabited σ] in
theorem sameVersions_of_quiet {α : Type} {m : Exec σ α} (h : Moves (Quiet env) m) :
    Moves SameVersions m := fun w => wp_mono (h w) fun _ _ hq => hq.2.1

instance : Std.Refl (SameVersions (σ := σ)) := ⟨fun _ => rfl⟩

instance : IsTrans (World σ) SameVersions := ⟨fun _ _ _ h h' => h'.trans h⟩

theorem executor_sameVersions (c : CommandName) (args : List Slice) :
    Moves SameVersions ((command env c).executor args) :=
  fun w => wp_mono (command_within c args w) fun _ _ h => h.1

theorem findCommand_sameVersions (line : CmdLine) :
    Moves SameVersions (findCommand env line) := by
  unfold findCommand
  split
  · exact .panics
  · dsimp only
    split
    · exact .pure _
    · split
      · exact .pure _
      · exact .pure _

theorem execWithLock_sameVersions (line : CmdLine) : Moves SameVersions (execWithLock env line) := by
  apply (findCommand_sameVersions line).bind
  intro r
  split
  · exact .pure _
  · exact executor_sameVersions _ _

theorem getUndoLogs_sameVersions (line : CmdLine) : Moves SameVersions (getUndoLogs env line) := by
  unfold getUndoLogs
  split
  · exact .panics
  · split
    · exact .pure _
    · split
      · exact .pure _
      · rename_i undo hundo
        exact sameVersions_of_quiet (undo_moves env _ _ undo hundo)

theorem execLines_sameVersions (lines : List CmdLine) : Moves SameVersions (execLines env lines) := by
  induction lines with
  | nil => exact .pure _
  | cons line lines ih =>
      apply (getUndoLogs_sameVersions line).bind
      intro _
      apply (execWithLock_sameVersions line).bind
      intro result
      split
      · exact .pure _
      · exact ih.bind fun _ => .pure _

theorem execUndo_sameVersions (lines : List CmdLine) : Moves SameVersions (execUndo env lines) := by
  induction lines with
  | nil => exact .pure _
  | cons line lines ih => exact (execWithLock_sameVersions line).bind fun _ => ih

theorem execQueue_sameVersions (lines : List CmdLine) : Moves SameVersions (execQueue env lines) := by
  apply (execLines_sameVersions lines).bind
  intro r
  dsimp only
  split
  · exact (execUndo_sameVersions _).bind fun _ => .pure _
  · exact .pure _

theorem execLocked_sameVersions (env : Env σ) (conn : Connection) (w : World σ) :
    SameVersions w (execLocked env conn w).2 := by
  rw [execLocked]
  dsimp only
  split
  · rfl
  · split <;> exact (execQueue_sameVersions conn.queue).final w

end

section

variable {ι σ : Type} {env : Env σ} {c i : ι} {key : Bytes} {version : UInt32} {s s' : System ι σ}

def ChangedBy (env : Env σ) (c i : ι) (key : Bytes) (s s' : System ι σ) : Prop :=
  i ≠ c ∧ s'.world.db.live env key ≠ s.world.db.live env key

theorem not_changedBy_of_eq (h : s'.world.db.live env key = s.world.db.live env key) :
    ¬ ChangedBy env c i key s s' := fun hc => hc.2 h

/-- At an `EXEC` that is not refused, the versions are the watched ones. -/
theorem version_eq_of_not_changed {db : DB σ} {watching : AList fun _ : Bytes => UInt32}
    (h : isWatchingChanged db watching = false) (hmem : watching.lookup key = some version) :
    version = db.versionMap key := by
  rw [isWatchingChanged, List.any_eq_false] at h
  have hne := h ⟨key, version⟩ (AList.mem_lookup_iff.mp hmem)
  simpa using hne

end

section

variable {ι σ : Type} [LinearOrder σ] [Inhabited σ] {env : Env σ}

/-- The new version of the key is put, and the command for it is not executed. -/
def Bumped (env : Env σ) (key : Bytes) : Stage → Prop
  | .bumping keys (.execute c args) => key ∈ ((command env c).prepare args).1 ∧ key ∉ keys
  | .putting k _ keys (.execute c args) =>
      key ∈ ((command env c).prepare args).1 ∧ key ≠ k ∧ key ∉ keys
  | _ => False

/-- Commands for the key are executed, and its new version is not put. -/
def Owes (key : Bytes) : Stage → Prop
  | .bumping keys (.release write _ _) => key ∈ write ∧ key ∈ keys
  | .putting k _ keys (.release write _ _) => key ∈ write ∧ (key = k ∨ key ∈ keys)
  | _ => False

def Stale (db : DB σ) (key : Bytes) : Stage → Prop
  | .putting k versionCode _ _ => k = key ∧ versionCode < db.versionMap key
  | _ => False

def System.WatchedByOther (s : System ι σ) (i : ι) (key : Bytes) : Prop :=
  ∃ j ≠ i, key ∈ (s.conns j).watching

/-- The lines of a transaction are all answered, and not by an error. -/
def Completes (env : Env σ) (lines : List CmdLine) (w : World σ) : Prop :=
  ∃ results, value (execQueue env lines) w = some (some results)

/-- No line that is run changes the value of the key. -/
def Untouched (env : Env σ) (key : Bytes) : List CmdLine → World σ → Prop
  | [], _ => True
  | line :: lines, w =>
      let found := final (getUndoLogs env line) w
      let w' := final (execWithLock env line) found
      w'.db.live env key = w.db.live env key ∧
        ∀ result, value (execWithLock env line) found = some result → isErrorReply result = false →
          Untouched env key lines w'

/-- What a step has to meet so that `WATCH` protects. -/
def Orderly (env : Env σ) (i : ι) (s : System ι σ) : Event → Prop
  | .watch => ∀ key keys, (s.conns i).stage = .watching (key :: keys) → ∀ j ≠ i,
      ¬ Bumped env key (s.conns j).stage ∧ ¬ Stale s.world.db key (s.conns j).stage
  | .putVersion => ∀ key versionCode keys next,
      (s.conns i).stage = .putting key versionCode keys next →
      (∃ j, key ∈ (s.conns j).watching) → versionCode + 1 ≠ 0
  | .execute => ∀ c args key, (s.conns i).stage = .bumping [] (.execute c args) →
      s.WatchedByOther i key → ¬ MovesAway env c args s.world.db key
  | .exec => isWatchingChanged s.world.db (s.conns i).watching = false →
      ∀ key, s.WatchedByOther i key →
        (key ∈ writeKeys env (s.conns i) ∧ Completes env (s.conns i).queue s.world) ∨
        (final (execQueue env (s.conns i).queue) s.world).db.live env key = s.world.db.live env key ∧
          (Completes env (s.conns i).queue s.world ∨ Untouched env key (s.conns i).queue s.world)
  | _ => True

def Watches (c : ι) (key : Bytes) (i : ι) (s : System ι σ) (e : Event) : Prop :=
  i = c ∧ e = .watch ∧ ∃ keys, (s.conns c).stage = .watching (key :: keys)

theorem prepare_eq (env env' : Env σ) (c : CommandName) :
    (command env c).prepare = (command env' c).prepare := by
  cases c <;> rfl

theorem Bumped.change {key : Bytes} {stage : Stage} (env' : Env σ) (h : Bumped env key stage) :
    Bumped env' key stage := by
  unfold Bumped at h ⊢
  split at h
  · rwa [prepare_eq env' env]
  · rwa [prepare_eq env' env]
  · exact h.elim

/-- What holds while a connection watches a key since it had the given version. -/
structure Guard (env : Env σ) (c : ι) (key : Bytes) (version : UInt32) (changed : Prop)
    (s : System ι σ) : Prop where
  version_le : version ≤ s.world.db.versionMap key
  read_le : ∀ i versionCode keys next,
    (s.conns i).stage = .putting key versionCode keys next → version ≤ versionCode
  bumped : ∀ i ≠ c, Bumped env key (s.conns i).stage → version < s.world.db.versionMap key
  changed : changed → version < s.world.db.versionMap key ∨ ∃ i ≠ c, Owes key (s.conns i).stage

variable {c i : ι} {key : Bytes} {version : UInt32} {changed changed' : Prop} {s s' : System ι σ}
  {conn : Connection} {w : World σ}

theorem Guard.weaken (h : Guard env c key version changed s) (hc : changed' → changed) :
    Guard env c key version changed' s :=
  ⟨h.version_le, h.read_le, h.bumped, fun h' => h.changed (hc h')⟩

theorem lt_add_one_of_le {v v' : UInt32} (h : v ≤ v') (h0 : v' + 1 ≠ 0) : v < v' + 1 := by
  rw [UInt32.le_iff_toNat_le] at h
  rw [UInt32.lt_iff_toNat_lt, UInt32.toNat_add]
  have hlt := UInt32.toNat_lt v'
  have hne : v'.toNat + 1 ≠ 2 ^ 32 := by
    intro he
    refine h0 (UInt32.toNat_inj.mp ?_)
    rw [UInt32.toNat_add]
    simp [he]
  simp only [UInt32.toNat_one]
  omega

theorem Guard.change (env' : Env σ) (h : Guard env c key version changed s) :
    Guard env' c key version changed s :=
  ⟨h.version_le, h.read_le, fun i hi hb => h.bumped i hi (hb.change env), h.changed⟩

/-- A connection that has to put the version of a key keeps it locked. -/
theorem not_owes_of_free (h : s.Free c (writeKeys env (s.conns c)) (readKeys env (s.conns c)))
    (hwatch : key ∈ (s.conns c).watching) (hic : i ≠ c) : ¬ Owes key (s.conns i).stage := by
  intro ho
  have hread : spread (hash key) ∈ toLockIndices (readKeys env (s.conns c)) := by
    apply List.mem_map_of_mem
    exact List.mem_append_right _ (AList.mem_keys.mp hwatch)
  refine (h i hic _).2 hread (List.mem_map_of_mem ?_)
  generalize (s.conns i).stage = stage at ho
  unfold Owes at ho
  split at ho
  · exact ho.1
  · exact ho.1
  · exact ho.elim

variable [DecidableEq ι]

abbrev Rule (ι σ : Type) := Env σ → ι → System ι σ → Event → Prop

def Runs (ok : Rule ι σ) : System ι σ → System ι σ → Prop :=
  Relation.ReflTransGen fun s s' => ∃ env i e, ok env i s e ∧ Step env i s e s'

def Starts (s : System ι σ) : Prop := ∀ i, s.conns i = newConn

/-- Where an `EXEC` is not refused, no step of another connection since the last `WATCH`
of a key has changed its value. -/
def WatchProtects (ok : Rule ι σ) : Prop :=
  ∀ ⦃env₀ env env₁ : Env σ⦄ ⦃c i : ι⦄ ⦃key : Bytes⦄ ⦃e : Event⦄
    ⦃start s₀ s₁ s₂ s₃ s₄ s₅ : System ι σ⦄,
    Starts start → Runs ok start s₀ →
    Watches c key c s₀ .watch → ok env₀ c s₀ .watch → Step env₀ c s₀ .watch s₁ →
    Runs (fun env i s e => ok env i s e ∧ ¬ Watches c key i s e) s₁ s₂ →
    i ≠ c → ok env i s₂ e → Step env i s₂ e s₃ →
    Runs (fun env i s e => ok env i s e ∧ ¬ Watches c key i s e) s₃ s₄ →
    ok env₁ c s₄ .exec → Step env₁ c s₄ .exec s₅ → key ∈ (s₄.conns c).watching →
    isWatchingChanged s₄.world.db (s₄.conns c).watching = false →
    s₃.world.db.live env key = s₂.world.db.live env key

/-- A step of one connection only has to be looked at there. -/
theorem Guard.update (h : Guard env c key version changed s)
    (hle : version ≤ w.db.versionMap key)
    (hlt : version < s.world.db.versionMap key → version < w.db.versionMap key)
    (hread : ∀ versionCode keys next,
      conn.stage = .putting key versionCode keys next → version ≤ versionCode)
    (hbumped : i ≠ c → Bumped env key conn.stage → version < w.db.versionMap key)
    (howes : i ≠ c → Owes key (s.conns i).stage →
      version < w.db.versionMap key ∨ Owes key conn.stage)
    (hchanged : changed' → changed ∨ version < w.db.versionMap key ∨ i ≠ c ∧ Owes key conn.stage) :
    Guard env c key version changed' (s.update i conn w) where
  version_le := hle
  read_le := by
    intro j versionCode keys next hj
    by_cases hij : j = i
    · subst j
      exact hread _ keys next (by simpa [System.update] using hj)
    · exact h.read_le j _ keys next (by simpa [System.update, hij] using hj)
  bumped := by
    intro j hjc hj
    by_cases hij : j = i
    · subst j
      exact hbumped hjc (by simpa [System.update] using hj)
    · exact hlt (h.bumped j hjc (by simpa [System.update, hij] using hj))
  changed := by
    have hself (hic : i ≠ c) (ho : Owes key conn.stage) :
        ∃ j ≠ c, Owes key ((s.update i conn w).conns j).stage :=
      ⟨i, hic, by simpa [System.update] using ho⟩
    intro h'
    rcases hchanged h' with hold | hversion | ⟨hic, ho⟩
    · rcases h.changed hold with hversion | ⟨j, hjc, hj⟩
      · exact .inl (hlt hversion)
      · by_cases hij : j = i
        · subst j
          exact (howes hjc hj).imp id (hself hjc)
        · exact .inr ⟨j, hjc, by simpa [System.update, hij] using hj⟩
    · exact .inl hversion
    · exact .inr (hself hic ho)

/-- The stages in which a connection neither reads a version nor has to put one. -/
def Settled (env : Env σ) (key : Bytes) (stage : Stage) : Prop :=
  (∀ versionCode keys next, stage ≠ .putting key versionCode keys next) ∧
    ¬ Bumped env key stage ∧ ¬ Owes key stage

theorem Guard.settle (h : Guard env c key version changed s)
    (hversion : SameVersions s.world w) (hold : ¬ Owes key (s.conns i).stage)
    (hnew : Settled env key conn.stage)
    (hchanged : changed' → changed ∨ version < s.world.db.versionMap key) :
    Guard env c key version changed' (s.update i conn w) := by
  have heq : w.db.versionMap = s.world.db.versionMap := hversion
  refine h.update (heq ▸ h.version_le) (by simp [heq]) (fun v keys next he => ?_)
    (fun _ hb => (hnew.2.1 hb).elim) (fun _ ho => (hold ho).elim) fun hc => ?_
  · exact (hnew.1 v keys next he).elim
  · rw [heq]
    exact (hchanged hc).imp id .inl

theorem settled_idle : Settled env key .idle := ⟨nofun, id, id⟩

theorem settled_watching (keys : List Bytes) : Settled env key (.watching keys) :=
  ⟨nofun, id, id⟩

theorem settled_committing : Settled env key .committing := ⟨nofun, id, id⟩

theorem settled_release (write read : List Bytes) (reply : Reply) :
    Settled env key (.bumping [] (.release write read reply)) :=
  ⟨nofun, id, fun h => by simp [Owes] at h⟩

theorem settled_execute (cmd : CommandName) (args : List Slice) :
    Settled env key (.bumping ((command env cmd).prepare args).1 (.execute cmd args)) :=
  ⟨nofun, fun h => h.2 h.1, id⟩

def Dispatched (env : Env σ) (key : Bytes) (conn conn' : Connection) : Prop :=
  Settled env key conn'.stage ∧ (conn'.watching = conn.watching ∨ conn'.watching = ∅)

theorem dispatched_write (conn : Connection) (reply : Reply) :
    Dispatched env key conn (conn.write reply) := ⟨settled_idle, .inl rfl⟩

theorem dispatched_reset (conn : Connection) (reply : Reply) :
    Dispatched env key conn ((conn.setMultiState false).write reply) := ⟨settled_idle, .inr rfl⟩

theorem startMulti_dispatched (conn : Connection) : Dispatched env key conn conn.startMulti := by
  rw [Connection.startMulti]
  split
  · exact dispatched_write conn _
  · exact ⟨settled_idle, .inl rfl⟩

theorem discardMulti_dispatched (conn : Connection) :
    Dispatched env key conn conn.discardMulti := by
  rw [Connection.discardMulti]
  split
  · exact dispatched_reset conn _
  · exact dispatched_write conn _

theorem execMulti_dispatched (conn : Connection) : Dispatched env key conn conn.execMulti := by
  rw [Connection.execMulti]
  split
  · split
    · exact ⟨settled_committing, .inl rfl⟩
    · exact dispatched_reset conn _
  · exact dispatched_write conn _

theorem enqueueCmd_dispatched (conn : Connection) (name : Slice) (args : List Slice) :
    Dispatched env key conn (enqueueCmd env conn name args) := by
  rw [enqueueCmd]
  split <;> exact ⟨settled_idle, .inl rfl⟩

theorem execNormalCommand_dispatched (conn : Connection) (name : Slice) (args : List Slice) :
    Dispatched env key conn (execNormalCommand env conn name args) := by
  rw [execNormalCommand]
  split
  · exact dispatched_write conn _
  · exact ⟨settled_execute _ _, .inl rfl⟩

theorem exec_dispatched (conn : Connection) (line : CmdLine) :
    Dispatched env key conn (exec env conn line) := by
  unfold exec
  split
  · exact dispatched_write conn _
  · dsimp only
    split
    · split
      · exact startMulti_dispatched conn
      · exact dispatched_write conn _
    · split
      · split
        · exact discardMulti_dispatched conn
        · exact dispatched_write conn _
      · split
        · split
          · exact execMulti_dispatched conn
          · exact dispatched_write conn _
        · split
          · split
            · exact dispatched_write conn _
            · exact ⟨settled_watching _, .inl rfl⟩
          · split
            · exact enqueueCmd_dispatched conn _ _
            · exact execNormalCommand_dispatched conn _ _

theorem watch_settled (conn : Connection) (k : Bytes) (v : UInt32) (keys : List Bytes) :
    Settled env key (conn.watch k v keys).stage := by
  unfold Connection.watch
  dsimp only
  split
  · exact settled_idle
  · exact settled_watching keys

theorem watch_lookup (conn : Connection) (k : Bytes) (v : UInt32) (keys : List Bytes) :
    (conn.watch k v keys).watching.lookup key =
      if key = k then some v else conn.watching.lookup key := by
  have hw : (conn.watch k v keys).watching = conn.watching.insert k v := by
    unfold Connection.watch
    dsimp only
    split <;> rfl
  rw [hw]
  by_cases hk : key = k
  · subst k
    simp
  · simp [hk]

/-- A key that is watched after a step was watched before with the same version, if the
step does not watch it. -/
theorem Step.watching {e : Event} (h : Step env i s e s') (hw : ¬ Watches c key i s e)
    (hmem : (s'.conns c).watching.lookup key = some version) :
    (s.conns c).watching.lookup key = some version := by
  by_cases hic : i = c
  · subst i
    cases h with
    | request line hidle =>
        simp only [System.update, Function.update_self] at hmem
        have hexec : Dispatched env key (s.conns c) (Transaction.exec env (s.conns c) line) :=
          exec_dispatched (s.conns c) line
        rcases hexec.2 with he | he
        · rwa [he] at hmem
        · simp [he] at hmem
    | watch k keys hstage =>
        simp only [System.update, Function.update_self, watch_lookup] at hmem
        have hne : key ≠ k := fun he => hw ⟨rfl, rfl, keys, he ▸ hstage⟩
        rwa [if_neg hne] at hmem
    | getVersion => simpa [System.update] using hmem
    | putVersion => simpa [System.update] using hmem
    | execute => simpa [System.update, executeLocked] using hmem
    | exec =>
        have he : (execLocked env (s.conns c) s.world).1.watching = ∅ := by
          rw [execLocked]
          dsimp only
          split
          · rfl
          · split <;> rfl
        simp [System.update, he] at hmem
    | unlock => simpa [System.update, Connection.write] using hmem
  · have hc : c ≠ i := fun he => hic he.symm
    cases h <;> simpa [System.update, hc] using hmem

theorem executeLocked_changed {cmd : CommandName} {args : List Slice}
    (h : Guard env c key version changed s) (hwatch : key ∈ (s.conns c).watching)
    (hstage : (s.conns i).stage = .bumping [] (.execute cmd args)) (hok : Orderly env i s .execute)
    (hc : ChangedBy env c i key s (s.update i conn (executeLocked env (s.conns i) cmd args s.world).2)) :
    version < s.world.db.versionMap key := by
  obtain ⟨hic, hne⟩ := hc
  by_cases hwrite : key ∈ ((command env cmd).prepare args).1
  · apply h.bumped i hic
    rw [hstage]
    exact ⟨hwrite, List.not_mem_nil⟩
  · have hmove := hok cmd args key hstage ⟨c, hic.symm, hwatch⟩
    exact absurd (executor_live hwrite hmove) hne

theorem Guard.putVersion {k : Bytes} {v : UInt32} {keys : List Bytes} {next : Next}
    (h : Guard env c key version changed s) (hwatch : key ∈ (s.conns c).watching)
    (hstage : (s.conns i).stage = .putting k v keys next) (hok : Orderly env i s .putVersion) :
    Guard env c key version changed (s.update i { s.conns i with stage := .bumping keys next }
      (World.putVersion s.world k (v + 1))) := by
  by_cases hk : k = key
  · subst k
    have hle := h.read_le i v keys next hstage
    have hlt : version < v + 1 := lt_add_one_of_le hle (hok key v keys next hstage ⟨c, hwatch⟩)
    have hnew : version < (World.putVersion s.world key (v + 1)).db.versionMap key := by
      simpa [World.putVersion] using hlt
    exact h.update (UInt32.le_of_lt hnew) (fun _ => hnew) nofun (fun _ _ => hnew)
      (fun _ _ => .inl hnew) .inl
  · have hsame : (World.putVersion s.world k (v + 1)).db.versionMap key =
        s.world.db.versionMap key := by simp [World.putVersion, Ne.symm hk]
    refine h.update (hsame ▸ h.version_le) (by simp [hsame]) nofun (fun hic hb => ?_)
      (fun _ ho => .inr ?_) .inl
    · apply hsame ▸ h.bumped i hic
      rw [hstage]
      cases next with
      | execute cmd args => exact ⟨hb.1, Ne.symm hk, hb.2⟩
      | release => exact hb.elim
    · rw [hstage] at ho
      cases next with
      | execute => exact ho.elim
      | release => exact ⟨ho.1, ho.2.resolve_left (Ne.symm hk)⟩

theorem Guard.execLocked (h : Guard env c key version changed s)
    (hwatch : key ∈ (s.conns c).watching) (hstage : (s.conns i).stage = .committing)
    (hok : Orderly env i s .exec) :
    Guard env c key version (changed ∨ ChangedBy env c i key s
        (s.update i (execLocked env (s.conns i) s.world).1 (execLocked env (s.conns i) s.world).2))
      (s.update i (execLocked env (s.conns i) s.world).1
        (execLocked env (s.conns i) s.world).2) := by
  have hold : ¬ Owes key (s.conns i).stage := by
    rw [hstage]
    exact id
  have hversion := execLocked_sameVersions env (s.conns i) s.world
  revert hversion
  rw [Transaction.execLocked]
  dsimp only
  split
  · intro hversion
    apply h.settle hversion hold (settled_release _ _ _)
    intro hc
    exact hc.imp id fun hc => (not_changedBy_of_eq rfl hc).elim
  · rename_i hwatching
    have hkey (hic : i ≠ c) := hok (by simpa using hwatching) key ⟨c, hic.symm, hwatch⟩
    split
    · intro hversion
      have heq : (final (execQueue env (s.conns i).queue) s.world).db.versionMap =
        s.world.db.versionMap := hversion
      refine h.update (heq ▸ h.version_le) (by simp [heq]) nofun (fun _ => False.elim)
        (fun _ ho => (hold ho).elim) fun hc => ?_
      rcases hc with hc | ⟨hic, hne⟩
      · exact .inl hc
      · rcases hkey hic with ⟨hmem, -⟩ | ⟨hlive, -⟩
        · exact .inr (.inr ⟨hic, hmem, hmem⟩)
        · exact absurd hlive hne
    · rename_i hvalue
      intro hversion
      apply h.settle hversion hold (settled_release _ _ _)
      intro hc
      refine hc.imp id fun ⟨hic, hne⟩ => ?_
      rcases hkey hic with ⟨-, results, hresults⟩ | ⟨hlive, -⟩
      · simp [hvalue] at hresults
      · exact absurd hlive hne
    · rename_i hvalue
      intro hversion
      apply h.settle hversion hold (settled_release _ _ _)
      intro hc
      refine hc.imp id fun ⟨hic, hne⟩ => ?_
      rcases hkey hic with ⟨-, results, hresults⟩ | ⟨hlive, -⟩
      · simp [hvalue] at hresults
      · exact absurd hlive hne

theorem Guard.step {e : Event} (h : Guard env c key version changed s) (hstep : Step env i s e s')
    (hok : Orderly env i s e) (hwatch : key ∈ (s.conns c).watching) :
    Guard env c key version (changed ∨ ChangedBy env c i key s s') s' := by
  cases hstep with
  | request line hstage =>
      apply h.settle rfl (by simp [hstage, Owes]) (exec_dispatched _ line).1
      intro hc
      exact hc.imp id fun hc => (not_changedBy_of_eq rfl hc).elim
  | watch k keys hstage =>
      apply h.settle rfl (by simp [hstage, Owes]) (watch_settled _ _ _ _)
      intro hc
      exact hc.imp id fun hc => (not_changedBy_of_eq rfl hc).elim
  | getVersion k keys next hstage =>
      refine h.update h.version_le id (fun v keys' next' he => ?_) (fun hic hb => h.bumped i hic ?_)
        (fun _ ho => .inr ?_) fun hc => hc.imp id fun hc => (not_changedBy_of_eq rfl hc).elim
      · obtain ⟨rfl, rfl, -, -⟩ : k = key ∧ s.world.db.versionMap k = v ∧ keys = keys' ∧ next = next' := by
          simpa using he
        exact h.version_le
      · rw [hstage]
        cases next with
        | execute cmd args => simpa [Bumped] using hb
        | release => exact hb.elim
      · rw [hstage] at ho
        cases next with
        | execute => exact ho.elim
        | release => simpa [Owes] using ho
  | putVersion k v keys next hstage =>
      apply (h.putVersion hwatch hstage hok).weaken
      intro hc
      exact hc.resolve_right (not_changedBy_of_eq rfl)
  | execute cmd args hstage hfree =>
      refine h.settle ((executor_sameVersions cmd args).final s.world) (by simp [hstage, Owes])
        (settled_release _ _ _) fun hc => ?_
      exact hc.imp id (executeLocked_changed h hwatch hstage hok)
  | exec hstage hfree => exact h.execLocked hwatch hstage hok
  | unlock write read reply hstage =>
      apply h.settle rfl (by simp [hstage, Owes]) settled_idle
      intro hc
      exact hc.imp id fun hc => (not_changedBy_of_eq rfl hc).elim

theorem Guard.of_watch (env : Env σ) {keys : List Bytes}
    (hstage : (s.conns c).stage = .watching (key :: keys)) (hok : Orderly env c s .watch) :
    Guard env c key (s.world.db.versionMap key) False
      (s.update c ((s.conns c).watch key (s.world.db.versionMap key) keys) s.world) where
  version_le := UInt32.le_refl _
  read_le := by
    intro j v keys' next hj
    by_cases hjc : j = c
    · subst j
      simp only [System.update, Function.update_self] at hj
      have hsettled : Settled env key ((s.conns c).watch key (s.world.db.versionMap key) keys).stage :=
        watch_settled _ _ _ _
      exact (hsettled.1 _ _ _ hj).elim
    · simp only [System.update, Function.update_of_ne hjc] at hj
      refine UInt32.not_lt.mp fun hlt => (hok key keys hstage j hjc).2 ?_
      rw [hj]
      exact ⟨rfl, hlt⟩
  bumped := by
    intro j hjc hj
    simp only [System.update, Function.update_of_ne hjc] at hj
    exact ((hok key keys hstage j hjc).1 hj).elim
  changed := False.elim

theorem Runs.watching {ok : Rule ι σ}
    (h : Runs (fun env i s e => ok env i s e ∧ ¬ Watches c key i s e) s s')
    (hmem : (s'.conns c).watching.lookup key = some version) :
    (s.conns c).watching.lookup key = some version := by
  induction h with
  | refl => exact hmem
  | tail _ hstep ih =>
      obtain ⟨_, _, _, ⟨_, hw⟩, hstep⟩ := hstep
      exact ih (hstep.watching hw hmem)

/-- The guard holds along a run, as long as the key is watched. -/
theorem Guard.runs (h : Guard env c key version changed s)
    (hruns : Runs (fun env i s e => Orderly env i s e ∧ ¬ Watches c key i s e) s s')
    (hmem : (s'.conns c).watching.lookup key = some version) :
    Guard env c key version changed s' := by
  induction hruns with
  | refl => exact h
  | @tail s₁ s₂ _ hstep ih =>
      obtain ⟨env', j, e, ⟨hok, hw⟩, hstep⟩ := hstep
      have hmem₁ := hstep.watching hw hmem
      have hwatch : key ∈ (s₁.conns c).watching :=
        AList.lookup_isSome.mp (by simp [hmem₁])
      have hguard := ((ih hmem₁).change env').step hstep hok hwatch
      exact (hguard.weaken .inl).change env

theorem watchProtects_orderly : WatchProtects (ι := ι) (σ := σ) Orderly := by
  intro env₀ env env₁ c i key e start s₀ s₁ s₂ s₃ s₄ s₅ _ _ hwatches hok₀ hstep₀ hruns₁ hic hok
    hstep hruns₃ _ hexec hwatch hversions
  obtain ⟨version, hversion⟩ := Option.isSome_iff_exists.mp (AList.lookup_isSome.mpr hwatch)
  have hnotw : ¬ Watches c key i s₂ e := fun hw => hic hw.1
  have hversion₃ := hruns₃.watching hversion
  have hversion₂ := hstep.watching hnotw hversion₃
  have hversion₁ := hruns₁.watching hversion₂
  have hguard₁ : Guard env c key version False s₁ := by
    cases hstep₀ with
    | watch k keys hstage =>
        obtain ⟨-, -, keys', hstage'⟩ := hwatches
        obtain ⟨rfl, rfl⟩ : k = key ∧ keys = keys' := by simpa [hstage] using hstage'
        simp only [System.update, Function.update_self, watch_lookup, if_true,
          Option.some.injEq] at hversion₁
        rw [← hversion₁]
        exact (Guard.of_watch env₀ hstage hok₀).change env
  have hguard₂ := hguard₁.runs hruns₁ hversion₂
  have hwatch₂ : key ∈ (s₂.conns c).watching := AList.lookup_isSome.mp (by simp [hversion₂])
  have hguard₃ := hguard₂.step hstep hok hwatch₂
  have hguard₄ := hguard₃.runs hruns₃ hversion
  by_contra hne
  rcases hguard₄.changed (.inr ⟨hic, hne⟩) with hlt | ⟨j, hjc, ho⟩
  · rw [version_eq_of_not_changed hversions hversion] at hlt
    exact UInt32.lt_irrefl _ hlt
  · cases hexec with
    | exec hstage hfree => exact not_owes_of_free hfree hwatch hjc ho

end

section

theorem free_of_unlocked {ι σ : Type} {s : System ι σ} {i : ι}
    (h : ∀ j ≠ i, (s.conns j).stage.locked = ([], [])) (write read : List Bytes) :
    s.Free i write read := by
  intro j hj index
  rw [h j hj]
  exact ⟨fun _ => List.not_mem_nil, fun _ => List.not_mem_nil⟩

def newDB : DB ℤ := ⟨∅, ∅, fun _ => 0⟩

def twoConnections : System Bool ℤ := ⟨⟨newDB, []⟩, fun _ => newConn⟩

def plainLine (words : List String) : CmdLine := words.map fun word => some (bytes word)

/-- The first connection puts the version of its `SET` before the second one watches the
key, and the value after it. -/
theorem not_watchProtects : ¬ WatchProtects (ι := Bool) (σ := ℤ) fun _ _ _ _ => True := by
  intro h
  have hruns := Relation.ReflTransGen.refl (a := twoConnections)
    (r := fun s s' => ∃ env i e, True ∧ Step env i s e s')
    |>.tail ⟨.plain 0, true, _, trivial, .request (plainLine ["set", "k", "v"]) rfl⟩
    |>.tail ⟨.plain 0, true, _, trivial,
      .getVersion (bytes "k") [] (.execute .set (plainLine ["k", "v"])) rfl⟩
    |>.tail ⟨.plain 0, true, _, trivial, .putVersion (bytes "k") 0 [] _ rfl⟩
    |>.tail ⟨.plain 0, false, _, trivial, .request (plainLine ["watch", "k"]) rfl⟩
  have hlive := @h (.plain 0) (.plain 0) (.plain 0) false true (bytes "k") .execute twoConnections
    _ _ _ _ _ _ (fun _ => rfl) hruns ⟨rfl, rfl, [], rfl⟩ trivial (.watch (bytes "k") [] rfl) .refl
    (by decide) trivial
    (.execute .set (plainLine ["k", "v"]) rfl (free_of_unlocked (fun j hj => by
      cases j with
      | false => rfl
      | true => exact absurd rfl hj) _ _))
    (Relation.ReflTransGen.refl
      |>.tail ⟨.plain 0, true, .unlock, ⟨trivial, fun hw => nomatch hw.2.1⟩, .unlock _ _ .ok rfl⟩
      |>.tail ⟨.plain 0, false, .request _, ⟨trivial, fun hw => nomatch hw.2.1⟩,
        .request (plainLine ["multi"]) rfl⟩
      |>.tail ⟨.plain 0, false, .request _, ⟨trivial, fun hw => nomatch hw.2.1⟩,
        .request (plainLine ["exec"]) rfl⟩)
    trivial
    (.exec rfl (free_of_unlocked (fun j hj => by
      cases j with
      | false => exact absurd rfl hj
      | true => rfl) _ _)) (by decide) (by decide)
  exact nomatch (hlive : some (Entity.str (some (bytes "v"))) = none)

end

end Traitor.Transaction
