import Traitor.CollectionEdits

namespace Traitor.Database

open Lib.Effects Lib.Strconv Protocol

variable {σ : Type} (env : Env σ) {K : List Bytes} {key : Bytes}

/-- Outside some keys nothing is changed but by evictions, and no key has a new version. -/
def Within (K : List Bytes) (w w' : World σ) : Prop :=
  w'.db.versionMap = w.db.versionMap ∧
    ∀ key ∉ K, w.db.SameAt w'.db key ∨ w.db.Evicted env w'.db key

instance : Std.Refl (Within env K) := ⟨fun _ => ⟨rfl, fun _ _ => .inl ⟨rfl, rfl⟩⟩⟩

instance : IsTrans (World σ) (Within env K) := by
  refine ⟨fun w w' w'' h h' => ⟨h'.1.trans h.1, fun key hkey => ?_⟩⟩
  rcases h.2 key hkey, h'.2 key hkey with ⟨hsame | hout, hsame' | hout'⟩
  · exact .inl ⟨hsame'.1.trans hsame.1, hsame'.2.trans hsame.2⟩
  · exact .inr ⟨hsame.isExpired_eq ▸ hout'.1, hout'.2⟩
  · exact .inr ⟨hout.1, hsame'.1.trans hout.2.1, hsame'.2.trans hout.2.2⟩
  · simp [DB.Evicted, hout.not_isExpired] at hout'

variable {env}

theorem within_of_quiet {α : Type} {m : Exec σ α} (h : Moves (Quiet env) m) :
    Moves (Within env K) m :=
  fun w => wp_mono (h w) fun _ _ hq => ⟨hq.2.1, fun key _ => hq.2.2 key⟩

theorem Within.mono {K' : List Bytes} {α : Type} {m : Exec σ α} (h : Moves (Within env K) m)
    (hK : ∀ key ∈ K, key ∈ K') : Moves (Within env K') m :=
  fun w => wp_mono (h w) fun _ _ hw =>
    ⟨hw.1, fun key hkey => hw.2 key fun hmem => hkey (hK key hmem)⟩

theorem modifyDB_within {f : DB σ → DB σ} (hv : ∀ db : DB σ, (f db).versionMap = db.versionMap)
    (h : ∀ db : DB σ, ∀ key ∉ K, db.SameAt (f db) key) : Moves (Within env K) (modifyDB f) :=
  fun w => ⟨hv w.db, fun key hkey => .inl (h w.db key hkey)⟩

theorem put_within (h : key ∈ K) (entity : Entity σ) : Moves (Within env K) (putEntity key entity) := by
  refine modifyDB_within (fun _ => rfl) fun db k hk => ⟨?_, rfl⟩
  have hne : k ≠ key := fun he => hk (he ▸ h)
  simp [DB.put, hne]

theorem remove_within (h : key ∈ K) : Moves (Within env K) (remove key) := by
  refine modifyDB_within (fun _ => rfl) fun db k hk => ?_
  have hne : k ≠ key := fun he => hk (he ▸ h)
  exact ⟨by simp [DB.remove, hne], by simp [DB.remove, hne]⟩

theorem expire_within (h : key ∈ K) (expireTime : Int) :
    Moves (Within env K) (expire key expireTime) := by
  refine modifyDB_within (fun _ => rfl) fun db k hk => ⟨rfl, ?_⟩
  have hne : k ≠ key := fun he => hk (he ▸ h)
  simp [DB.expire, hne]

theorem persist_within (h : key ∈ K) : Moves (Within env K) (persist key) := by
  refine modifyDB_within (fun _ => rfl) fun db k hk => ⟨rfl, ?_⟩
  have hne : k ≠ key := fun he => hk (he ▸ h)
  simp [DB.persist, hne]

theorem log_within (line : CmdLine) : Moves (Within env K) (addAof line) :=
  fun _ => ⟨rfl, fun _ _ => .inl ⟨rfl, rfl⟩⟩

theorem get_within : Moves (Within env K) (get : Exec σ (World σ)) :=
  fun w => refl_of (Within env K) w

theorem has_within (key : Bytes) : Moves (Within env K) (has key) := get_within.map

theorem getEntity_within (key : Bytes) : Moves (Within env K) (getEntity env key) :=
  within_of_quiet (getEntity_moves env key)

theorem getTTL_within (key : Bytes) : Moves (Within env K) (getTTL key) :=
  within_of_quiet (getTTL_moves env key)

theorem removes_within {keys : List Bytes} (h : ∀ key ∈ keys, key ∈ K) :
    Moves (Within env K) (removes keys) := by
  induction keys with
  | nil => exact .pure _
  | cons key keys ih =>
      have hrest := ih fun k hk => h k (List.mem_cons_of_mem key hk)
      apply (has_within key).bind
      intro b
      split
      · exact (remove_within (h key List.mem_cons_self)).bind fun _ => hrest.bind fun _ => .pure _
      · exact hrest

theorem moveTTL_within {src dest : Bytes} (hsrc : src ∈ K) (hdest : dest ∈ K) (ttl : Option Int) :
    Moves (Within env K) (moveTTL src dest ttl) := by
  cases ttl with
  | none => exact .pure _
  | some t =>
      exact (persist_within hsrc).bind fun _ => (persist_within hdest).bind fun _ =>
        expire_within hdest t

section

variable (args : List Slice)

/-- The source is removed, but only read according to `prepareRename`. -/
theorem execRename_within :
    Moves (Within env ((prepareRename args).1 ++ (prepareRename args).2)) (execRename env args) := by
  unfold execRename
  split
  · apply (getEntity_within _).bind
    intro r
    split
    · exact .pure _
    · refine (getTTL_within _).bind fun ttl => (put_within (by simp [prepareRename]) _).bind
        fun _ => (remove_within (by simp [prepareRename])).bind fun _ => ?_
      exact (moveTTL_within (by simp [prepareRename]) (by simp [prepareRename]) ttl).bind
        fun _ => (log_within _).bind fun _ => .pure _
  · exact .pure _

theorem execRenameNx_within :
    Moves (Within env ((prepareRename args).1 ++ (prepareRename args).2)) (execRenameNx env args) := by
  unfold execRenameNx
  split
  · apply (getEntity_within _).bind
    intro r
    split
    · exact .pure _
    · apply (getEntity_within _).bind
      intro r
      split
      · exact .pure _
      · apply (getTTL_within _).bind
        intro ttl
        apply (removes_within (by simp [prepareRename])).bind
        intro _
        apply (put_within (by simp [prepareRename]) _).bind
        intro _
        exact (moveTTL_within (by simp [prepareRename]) (by simp [prepareRename]) ttl).bind
          fun _ => (log_within _).bind fun _ => .pure _
  · exact .panics

def movedKeys : CommandName → List Slice → List Bytes
  | .rename, args | .renameNx, args => (prepareRename args).2
  | _, _ => []

/-- Edits of some keys leave the others as they are. -/
theorem within_of_edits {α : Type} {P : Entity σ → Prop} {m : Exec σ α}
    (h : Moves (Edits env P {key | key ∈ K}) m) : Moves (Within env K) m := by
  intro w
  refine wp_mono (h w) fun _ w' hedits => ?_
  induction hedits with
  | refl => exact refl_of (Within env K) w
  | tail _ hedit ih =>
      apply trans_of (Within env K) ih
      cases hedit with
      | quiet hquiet => exact ⟨hquiet.2.1, fun key _ => hquiet.2.2 key⟩
      | log line => exact log_within line _
      | put hkey he => exact put_within hkey _ _
      | remove hkey => exact remove_within hkey _
      | persist hkey => exact persist_within hkey _
      | expire hkey hdata t => exact expire_within hkey t _

variable [LinearOrder σ] [Inhabited σ]

theorem command_within (c : CommandName) (args : List Slice) :
    Moves (Within env (((command env c).prepare args).1 ++ movedKeys c args))
      ((command env c).executor args) := by
  by_cases hrename : c = .rename
  · subst hrename
    exact execRename_within args
  · by_cases hrenameNx : c = .renameNx
    · subst hrenameNx
      exact execRenameNx_within args
    · exact Within.mono (within_of_edits (command_changes hrename hrenameNx args))
        fun _ => List.mem_append_left _

end

end Traitor.Database
