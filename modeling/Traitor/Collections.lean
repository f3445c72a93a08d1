import Traitor.ListRemoval
import Traitor.WriteCommands

namespace Traitor.Database

open Lib.Effects Lib.Strconv Protocol

variable {σ : Type} {env : Env σ} {key : Bytes}

/-- A collection has an element. The size of a list is what `LLEN` answers. -/
def Entity.Nonempty : Entity σ → Prop
  | .str _ => True
  | .list l => 0 < l.size
  | .hash d => ∃ field, field ∈ d
  | .set s => s.Nonempty
  | .zset z => z.nodes ≠ []

def DB.Full (db : DB σ) : Prop :=
  ∀ key entity, db.data.lookup key = some entity → entity.Nonempty

def DB.FullBut (key : Bytes) (db : DB σ) : Prop :=
  ∀ k ≠ key, ∀ entity, db.data.lookup k = some entity → entity.Nonempty

section

variable {db : DB σ}

theorem DB.Full.but (h : db.Full) (key : Bytes) : db.FullBut key := fun k _ => h k

theorem DB.FullBut.put (h : db.FullBut key) (entity : Entity σ) : (db.put key entity).FullBut key := by
  intro k hk e he
  rw [DB.put, Finmap.lookup_insert_of_ne _ hk] at he
  exact h k hk e he

theorem DB.FullBut.full_put (h : db.FullBut key) {entity : Entity σ} (hne : entity.Nonempty) :
    (db.put key entity).Full := by
  intro k e he
  by_cases hk : k = key
  · subst hk
    rw [DB.put, Finmap.lookup_insert] at he
    cases he
    exact hne
  · exact h.put entity k hk e he

theorem DB.FullBut.full_remove (h : db.FullBut key) : (db.remove key).Full := by
  intro k e he
  by_cases hk : k = key
  · subst hk
    rw [DB.remove, Finmap.lookup_erase] at he
    cases he
  · rw [DB.remove, Finmap.lookup_erase_ne hk] at he
    exact h k hk e he

theorem DB.Full.put (h : db.Full) {entity : Entity σ} (hne : entity.Nonempty) :
    (db.put key entity).Full := (h.but key).full_put hne

theorem DB.Full.remove (h : db.Full) (key : Bytes) : (db.remove key).Full := (h.but key).full_remove

theorem DB.Full.keeps {db' : DB σ} (h : db.Full) (hk : db.Keeps env db') : db'.Full := by
  intro k e he
  rcases hk.2 k with hsame | hout
  · exact h k e (hsame.1 ▸ he)
  · rw [hout.2.1] at he
    cases he

theorem DB.Full.evict (h : db.Full) (env : Env σ) (key : Bytes) : (db.evict env key).Full :=
  h.keeps (db.keeps_evict key)

theorem DB.Full.live (h : db.Full) {entity : Entity σ} (hl : db.live env key = some entity) :
    entity.Nonempty := h.evict env key key entity (DB.lookup_evict env hl)

end

def Fills (w w' : World σ) : Prop := w.db.Full → w'.db.Full

instance : Std.Refl (Fills (σ := σ)) := ⟨fun _ => id⟩

instance : IsTrans (World σ) Fills := ⟨fun _ _ _ h h' => h' ∘ h⟩

theorem fills_of_quiet {α : Type} {m : Exec σ α} (h : Moves (Quiet env) m) : Moves Fills m :=
  fun w => wp_mono (h w) fun _ _ hq hfull => hfull.keeps hq.2

theorem fills_modifyDB {f : DB σ → DB σ} (h : ∀ db : DB σ, db.Full → (f db).Full) :
    Moves Fills (modifyDB f) := fun w => h w.db

theorem putStr_fills (key : Bytes) (s : Slice) : Moves Fills (putEntity key (.str s) : Exec σ PUnit) :=
  fills_modifyDB fun _ h => h.put trivial

theorem remove_fills (key : Bytes) : Moves Fills (remove key : Exec σ PUnit) :=
  fills_modifyDB fun _ h => h.remove key

theorem expire_fills (key : Bytes) (t : Int) : Moves Fills (expire key t : Exec σ PUnit) :=
  fills_modifyDB fun _ h => h

theorem persist_fills (key : Bytes) : Moves Fills (persist key : Exec σ PUnit) :=
  fills_modifyDB fun _ h => h

theorem log_fills (line : CmdLine) : Moves Fills (addAof line : Exec σ PUnit) := fun _ h => h

theorem get_fills : Moves Fills (get : Exec σ (World σ)) := fun _ h => h

theorem has_fills (key : Bytes) : Moves Fills (has key : Exec σ Bool) := get_fills.map

theorem getEntity_fills (key : Bytes) : Moves Fills (getEntity env key) :=
  fills_of_quiet (getEntity_moves env key)

theorem getAsString_fills (key : Bytes) : Moves Fills (getAsString env key) :=
  fills_of_quiet (getAsString_moves env key)

theorem getTTL_fills (key : Bytes) : Moves Fills (getTTL key : Exec σ (Option Int)) :=
  fun _ h => h

theorem putStr_log_fills (key : Bytes) (s : Slice) (line : CmdLine) (reply : Reply) :
    Moves Fills (do
      putEntity key (.str s)
      addAof line
      return reply : Exec σ Reply) :=
  (putStr_fills _ _).bind fun _ => (log_fills _).bind fun _ => .pure _

theorem removes_fills (keys : List Bytes) : Moves Fills (removes keys : Exec σ Int) := by
  induction keys with
  | nil => exact .pure _
  | cons key keys ih =>
      apply (has_fills key).bind
      intro b
      split
      · exact (remove_fills key).bind fun _ => ih.bind fun _ => .pure _
      · exact ih

theorem moveTTL_fills (src dest : Bytes) (ttl : Option Int) :
    Moves Fills (moveTTL src dest ttl : Exec σ PUnit) := by
  cases ttl with
  | none => exact .pure _
  | some t =>
      exact (persist_fills src).bind fun _ => (persist_fills dest).bind fun _ => expire_fills dest t

section

variable (args : List Slice)

theorem putByPolicy_fills (policy : Policy) (key : Bytes) (s : Slice) :
    Moves Fills (putByPolicy policy key (.str s) : Exec σ Int) := by
  cases policy with
  | upsert => exact (putStr_fills _ _).bind fun _ => .pure _
  | insert =>
      apply (has_fills key).bind
      intro b
      split
      · exact .pure _
      · exact (putStr_fills _ _).bind fun _ => .pure _
  | update =>
      apply (has_fills key).bind
      intro b
      split
      · exact (putStr_fills _ _).bind fun _ => .pure _
      · exact .pure _

theorem putPairs_fills (l : List (Slice × Slice)) : Moves Fills (putPairs l : Exec σ PUnit) := by
  induction l with
  | nil => exact .pure _
  | cons p l ih => exact (putStr_fills _ _).bind fun _ => ih

theorem execSet_fills : Moves Fills (execSet env args) := by
  unfold execSet
  split
  · split
    · exact .pure _
    · apply (putByPolicy_fills _ _ _).bind
      intro n
      split
      · split
        · exact (expire_fills _ _).bind fun _ => (log_fills _).bind fun _ => (log_fills _).bind
            fun _ => .pure _
        · exact (persist_fills _).bind fun _ => (log_fills _).bind fun _ => .pure _
      · exact .pure _
  · exact .panics

theorem execSetNX_fills : Moves Fills (execSetNX args : Exec σ Reply) := by
  unfold execSetNX
  split
  · exact (putByPolicy_fills .insert _ _).bind fun _ => (log_fills _).bind fun _ => .pure _
  · exact .panics

theorem setWithTTL_fills (unit : Int) : Moves Fills (setWithTTL env unit args) := by
  unfold setWithTTL
  split
  · split
    · exact .pure _
    · split
      · exact .pure _
      · exact (putStr_fills _ _).bind fun _ => (expire_fills _ _).bind fun _ =>
          (log_fills _).bind fun _ => (log_fills _).bind fun _ => .pure _
  · exact .panics

theorem execMSet_fills : Moves Fills (execMSet args : Exec σ Reply) := by
  rw [execMSet]
  split
  · exact .pure _
  · exact (putPairs_fills _).bind fun _ => (log_fills _).bind fun _ => .pure _

theorem execMSetNX_fills : Moves Fills (execMSetNX env args) := by
  rw [execMSetNX]
  split
  · exact .pure _
  · apply (fills_of_quiet (anyExists_moves env _)).bind
    intro b
    split
    · exact .pure _
    · exact (putPairs_fills _).bind fun _ => (log_fills _).bind fun _ => .pure _

theorem getExOptions_fills (key : Bytes) (ttl : Int) (options : List Slice) :
    Moves Fills (getExOptions key ttl options : Exec σ (Except Reply Int)) := by
  fun_induction getExOptions key ttl options with
  | case1 | case2 | case3 | case5 | case6 | case8 => exact .pure _
  | case4 _ _ _ _ _ _ _ _ ih => exact ih
  | case7 _ _ _ _ _ _ _ _ _ ih => exact ih
  | case9 _ _ _ _ _ _ _ _ ih => exact (persist_fills _).bind fun _ => ih
  | case10 _ _ _ _ _ _ _ ih => exact ih

theorem execGetEX_fills : Moves Fills (execGetEX env args) := by
  unfold execGetEX
  split
  · apply (getAsString_fills _).bind
    intro r
    split
    · exact .pure _
    · exact .pure _
    · apply (getExOptions_fills _ _ _).bind
      intro r
      split
      · exact .pure _
      · split
        · exact .pure _
        · split
          · exact (expire_fills _ _).bind fun _ => (log_fills _).bind fun _ => .pure _
          · exact (persist_fills _).bind fun _ => (log_fills _).bind fun _ => .pure _
  · exact .panics

theorem execGetSet_fills : Moves Fills (execGetSet env args) := by
  unfold execGetSet
  split
  · apply (getAsString_fills _).bind
    intro r
    split
    · exact .pure _
    · refine (putStr_fills _ _).bind fun _ => (persist_fills _).bind fun _ =>
        (log_fills _).bind fun _ => ?_
      split
      · exact .pure _
      · exact .pure _
  · exact .panics

theorem execGetDel_fills : Moves Fills (execGetDel env args) := by
  unfold execGetDel
  split
  · apply (getAsString_fills _).bind
    intro r
    split
    · exact .pure _
    · exact .pure _
    · exact (remove_fills _).bind fun _ => (log_fills _).bind fun _ => .pure _
  · exact .panics

theorem addInteger_fills (name : String) (key : Bytes) (delta : Int) (initial : Slice) (first : Int) :
    Moves Fills (addInteger env name args key delta initial first) := by
  apply (getAsString_fills key).bind
  intro r
  split
  · exact .pure _
  · exact putStr_log_fills _ _ _ _
  · split
    · exact .pure _
    · exact putStr_log_fills _ _ _ _

theorem execIncr_fills : Moves Fills (execIncr env args) := by
  unfold execIncr
  split
  · exact addInteger_fills _ _ _ _ _ _
  · exact .panics

theorem execDecr_fills : Moves Fills (execDecr env args) := by
  unfold execDecr
  split
  · exact addInteger_fills _ _ _ _ _ _
  · exact .panics

theorem execIncrBy_fills : Moves Fills (execIncrBy env args) := by
  unfold execIncrBy
  split
  · split
    · exact .pure _
    · exact addInteger_fills _ _ _ _ _ _
  · exact .panics

theorem execDecrBy_fills : Moves Fills (execDecrBy env args) := by
  unfold execDecrBy
  split
  · split
    · exact .pure _
    · exact addInteger_fills _ _ _ _ _ _
  · exact .panics

theorem execIncrByFloat_fills : Moves Fills (execIncrByFloat env args) := by
  unfold execIncrByFloat
  split
  · split
    · exact .pure _
    · apply (getAsString_fills _).bind
      intro r
      split
      · exact .pure _
      · exact putStr_log_fills _ _ _ _
      · split
        · exact .pure _
        · exact putStr_log_fills _ _ _ _
  · exact .panics

theorem execAppend_fills : Moves Fills (execAppend env args) := by
  unfold execAppend
  split
  · apply (getAsString_fills _).bind
    intro r
    split
    · exact .pure _
    · exact putStr_log_fills _ _ _ _
  · exact .panics

theorem execSetRange_fills : Moves Fills (execSetRange env args) := by
  unfold execSetRange
  split
  · split
    · exact .pure _
    · apply (getAsString_fills _).bind
      intro r
      split
      · exact .pure _
      · dsimp only
        split
        · exact .panics
        · exact putStr_log_fills _ _ _ _
  · exact .panics

theorem execSetBit_fills : Moves Fills (execSetBit env args) := by
  unfold execSetBit
  split
  · split
    · exact .pure _
    · split
      · exact .pure _
      · apply (getAsString_fills _).bind
        intro r
        split
        · exact .pure _
        · split
          · exact (putStr_fills _ _).bind fun _ => .pure _
          · exact .panics
  · exact .panics

theorem execDel_fills : Moves Fills (execDel args : Exec σ Reply) := by
  apply (removes_fills _).bind
  intro n
  split
  · exact (log_fills _).bind fun _ => .pure _
  · exact .pure _

theorem expireCommand_fills (instant : Int → Int) : Moves Fills (expireCommand env instant args) := by
  unfold expireCommand
  split
  · split
    · exact .pure _
    · apply (getEntity_fills _).bind
      intro r
      split
      · exact .pure _
      · exact (expire_fills _ _).bind fun _ => (log_fills _).bind fun _ => .pure _
  · exact .panics

theorem execPersist_fills : Moves Fills (execPersist env args) := by
  unfold execPersist
  split
  · apply (getEntity_fills _).bind
    intro r
    split
    · exact .pure _
    · apply (getTTL_fills _).bind
      intro ttl
      split
      · exact .pure _
      · exact (persist_fills _).bind fun _ => (log_fills _).bind fun _ => .pure _
  · exact .panics

end

/-- The program leaves no empty collection behind, whether it panics or not. -/
def FullAfter {α : Type} (m : Exec σ α) (w : World σ) : Prop := wp m (fun _ t => t.db.Full) w

section

variable {α : Type} {w : World σ} {view : Entity σ → Option α}

theorem FullAfter.getAs {f : Except Reply (Option α) → Exec σ Reply} (h : w.db.Full)
    (herror : ∀ e t, t.db.Full → FullAfter (f (.error e)) t)
    (hnone : ∀ t : World σ, t.db.Full → FullAfter (f (.ok none)) t)
    (hsome : ∀ a entity, w.db.live env key = some entity → view entity = some a →
      FullAfter (f (.ok (some a))) { w with db := w.db.evict env key }) :
    FullAfter (Database.getAs env view key >>= f) w := by
  rw [FullAfter, wp_bind, wp_getAs]
  have hevict := h.evict env key
  cases hview : w.db.view env view key with
  | error e => exact herror e _ hevict
  | ok r =>
      cases r with
      | none => exact hnone _ hevict
      | some a =>
          obtain ⟨entity, hlive, ha⟩ := DB.live_of_view env hview
          exact hsome a entity hlive ha

theorem FullAfter.getOrInit {entity : α → Entity σ} {make : α} {f : Except Reply α → Exec σ Reply}
    (h : w.db.Full) (herror : ∀ e t, t.db.Full → FullAfter (f (.error e)) t)
    (hnone : w.db.live env key = none → ∀ t : World σ, t.db.FullBut key →
      t.db.data.lookup key = some (entity make) → FullAfter (f (.ok make)) t)
    (hsome : ∀ a e, w.db.live env key = some e → view e = some a →
      FullAfter (f (.ok a)) { w with db := w.db.evict env key }) :
    FullAfter (Database.getOrInit env view entity make key >>= f) w := by
  rw [FullAfter, Database.getOrInit, wp_bind, wp_bind, wp_getAs]
  have hevict := h.evict env key
  cases hview : w.db.view env view key with
  | error e => exact herror e _ hevict
  | ok r =>
      cases r with
      | none =>
          have hlive : w.db.live env key = none := by
            rw [DB.view] at hview
            split at hview
            · assumption
            · split at hview
              · cases hview
              · cases hview
          exact hnone hlive _ ((hevict.but key).put (entity make)) (Finmap.lookup_insert _)
      | some a =>
          obtain ⟨e, hlive, ha⟩ := DB.live_of_view env hview
          exact hsome a e hlive ha

theorem FullAfter.of_fills {m : Exec σ α} (h : w.db.Full) (hm : Moves Fills m) : FullAfter m w :=
  wp_mono (hm w) fun _ _ hfills => hfills h

theorem FullAfter.bind {β : Type} {m : Exec σ β} {f : β → Exec σ α} (h : w.db.Full) (hm : Moves Fills m)
    (hf : ∀ b t, value m w = some b → t.db.Full → FullAfter (f b) t) : FullAfter (m >>= f) w := by
  have hfull : (final m w).db.Full := hm.final w h
  rw [FullAfter, wp_bind, wp_iff]
  cases hv : value m w with
  | none => exact hfull
  | some b => exact hf b _ hv hfull

theorem FullAfter.put {m : Exec σ Reply} {entity : Entity σ} (h : w.db.FullBut key)
    (hne : entity.Nonempty) (hm : Moves Fills m) : FullAfter (do putEntity key entity; m) w := by
  rw [FullAfter, wp_bind]
  exact FullAfter.of_fills (h.full_put hne) hm

theorem FullAfter.of_remove {m : Exec σ Reply} (h : w.db.FullBut key) (hm : Moves Fills m) :
    FullAfter (do remove key; m) w := by
  rw [FullAfter, wp_bind]
  exact FullAfter.of_fills h.full_remove hm

theorem FullAfter.put_log {entity : Entity σ} (h : w.db.FullBut key) (hne : entity.Nonempty)
    (line : CmdLine) (reply : Reply) : FullAfter (do
      putEntity key entity
      addAof line
      return reply) w := .put h hne ((log_fills _).bind fun _ => .pure _)

end

section

variable {w : World σ} (args : List Slice)

theorem execRename_full (h : w.db.Full) : FullAfter (execRename env args) w := by
  unfold execRename
  split
  · next src dest =>
      rw [FullAfter, wp_bind, wp_getEntity]
      have hevict := h.evict env (text src)
      cases hlive : w.db.live env (text src) with
      | none => exact hevict
      | some entity =>
          have hmoves : Moves Fills (do
              remove (text src)
              moveTTL (text src) (text dest) ((w.db.evict env (text src)).ttlMap.lookup (text src))
              addAof (cmdLine3 "rename" [src, dest])
              return .ok : Exec σ Reply) :=
            (remove_fills _).bind fun _ => (moveTTL_fills _ _ _).bind fun _ => (log_fills _).bind
              fun _ => .pure _
          exact FullAfter.put (hevict.but _) (h.live hlive) hmoves
  · exact h

theorem execRenameNx_full (h : w.db.Full) : FullAfter (execRenameNx env args) w := by
  unfold execRenameNx
  split
  · next src dest rest =>
      rw [FullAfter, wp_bind, wp_getEntity]
      have hdest := h.evict env (text dest)
      cases hlive : w.db.live env (text dest) with
      | some entity => exact hdest
      | none =>
          dsimp only
          rw [wp_bind, wp_getEntity]
          have hsrc := hdest.evict env (text src)
          cases hlive : (w.db.evict env (text dest)).live env (text src) with
          | none => exact hsrc
          | some entity =>
              dsimp only
              apply FullAfter.bind hsrc (getTTL_fills _)
              intro ttl t _ ht
              refine .bind ht (removes_fills _) fun _ t _ ht => ?_
              exact .put (ht.but _) (hdest.live hlive) ((moveTTL_fills _ _ _).bind fun _ =>
                (log_fills _).bind fun _ => .pure _)
  · exact h

theorem mem_insert_dict (d : Dict HashValue) (field : Bytes) (value : HashValue) :
    (Entity.hash (d.insert field value) : Entity σ).Nonempty :=
  ⟨field, Finmap.mem_insert.mpr (.inl rfl)⟩

theorem execHSet_full (h : w.db.Full) : FullAfter (execHSet env args) w := by
  unfold execHSet
  split
  · refine .getOrInit h (fun _ _ ht => ht) (fun _ t ht _ => ?_) fun d e _ _ => ?_
    · exact .put_log ht (mem_insert_dict _ _ _) _ _
    · exact .put_log ((h.evict env _).but _) (mem_insert_dict _ _ _) _ _
  · exact h

theorem execHSetNX_full (h : w.db.Full) : FullAfter (execHSetNX env args) w := by
  unfold execHSetNX
  split
  · refine .getOrInit h (fun _ _ ht => ht) (fun _ t ht _ => ?_) fun d e _ _ => ?_
    · exact .put_log ht (mem_insert_dict _ _ _) _ _
    · dsimp only
      split
      · exact h.evict env _
      · exact .put_log ((h.evict env _).but _) (mem_insert_dict _ _ _) _ _
  · exact h

theorem putFields_nonempty {d : Dict HashValue} {l : List (Slice × Slice)} (h : l ≠ []) :
    (Entity.hash (putFields d l) : Entity σ).Nonempty := by
  obtain ⟨l, p, rfl⟩ := (List.eq_nil_or_concat' l).resolve_left h
  rw [putFields, List.foldl_append]
  exact mem_insert_dict _ _ _

theorem fieldPairs_ne_nil {rest : List Slice} (h : 2 ≤ rest.length) : fieldPairs rest ≠ [] := by
  rcases rest with _ | ⟨field, _ | ⟨value, rest⟩⟩
  · simp at h
  · simp at h
  · simp [fieldPairs]

theorem execHMSet_full (h : w.db.Full) (hargs : 3 ≤ args.length) : FullAfter (execHMSet env args) w := by
  unfold execHMSet
  split
  · next key rest =>
      have hne : fieldPairs rest ≠ [] := fieldPairs_ne_nil (by simpa using hargs)
      split
      · exact h
      · refine .getOrInit h (fun _ _ ht => ht) (fun _ t ht _ => ?_) fun d e _ _ => ?_
        · exact .put_log ht (putFields_nonempty hne) _ _
        · exact .put_log ((h.evict env _).but _) (putFields_nonempty hne) _ _
  · exact h

theorem execHIncrBy_full (h : w.db.Full) : FullAfter (execHIncrBy env args) w := by
  unfold execHIncrBy
  split
  · split
    · exact h
    · refine .getOrInit h (fun _ _ ht => ht) (fun _ t ht _ => ?_) fun d e _ _ => ?_
      · dsimp only
        rw [Finmap.lookup_empty]
        exact .put_log ht (mem_insert_dict _ _ _) _ _
      · dsimp only
        split
        · exact .put_log ((h.evict env _).but _) (mem_insert_dict _ _ _) _ _
        · exact h.evict env _
        · split
          · exact h.evict env _
          · exact .put_log ((h.evict env _).but _) (mem_insert_dict _ _ _) _ _
  · exact h

theorem execHIncrByFloat_full (h : w.db.Full) : FullAfter (execHIncrByFloat env args) w := by
  unfold execHIncrByFloat
  split
  · split
    · exact h
    · refine .getOrInit h (fun _ _ ht => ht) (fun _ t ht _ => ?_) fun d e _ _ => ?_
      · dsimp only
        rw [Finmap.lookup_empty]
        exact .put ht (mem_insert_dict _ _ _) (.pure _)
      · dsimp only
        split
        · exact .put ((h.evict env _).but _) (mem_insert_dict _ _ _) (.pure _)
        · exact h.evict env _
        · split
          · exact h.evict env _
          · exact .put_log ((h.evict env _).but _) (mem_insert_dict _ _ _) _ _
  · exact h

/-- A collection that has become empty is removed. -/
theorem FullAfter.put_remove {entity : Entity σ} {c c' : Prop} [Decidable c] [Decidable c']
    (h : w.db.FullBut key) (hne : ¬ c → entity.Nonempty) (line : CmdLine) (reply : Reply) :
    FullAfter (do
      putEntity key entity
      if c then remove key
      if c' then addAof line
      return reply) w := by
  have hlog : Moves Fills (do
      if c' then addAof line
      return reply : Exec σ Reply) := by
    dsimp only
    split
    · exact (log_fills _).bind fun _ => .pure _
    · exact .pure _
  rw [FullAfter, wp_bind]
  by_cases hc : c
  · simp only [if_pos hc]
    exact FullAfter.of_remove (w := { w with db := w.db.put key entity }) (h.put entity) hlog
  · simp only [if_neg hc]
    exact FullAfter.of_fills (w := { w with db := w.db.put key entity }) (h.full_put (hne hc)) hlog

theorem execHDel_full (h : w.db.Full) : FullAfter (execHDel env args) w := by
  unfold execHDel
  split
  · refine .getAs h (fun _ _ ht => ht) (fun _ ht => ht) fun d e _ _ => ?_
    refine FullAfter.put_remove ((h.evict env _).but _) (fun hcard => ?_) _ _
    obtain ⟨field, hfield⟩ := Finset.card_pos.mp (Nat.pos_of_ne_zero hcard)
    exact ⟨field, Finmap.mem_keys.mp hfield⟩
  · exact h

theorem set_nonempty {s : Finset Bytes} (h : s.Nonempty) : (Entity.set s : Entity σ).Nonempty := h

theorem execSRem_full (h : w.db.Full) : FullAfter (execSRem env args) w := by
  unfold execSRem
  split
  · refine .getAs h (fun _ _ ht => ht) (fun _ ht => ht) fun s e _ _ => ?_
    exact FullAfter.put_remove ((h.evict env _).but _)
      (fun hcard => set_nonempty (Finset.card_pos.mp (Nat.pos_of_ne_zero hcard))) _ _
  · exact h

theorem addMembers_nonempty (s : Finset Bytes) {l : List Bytes} (h : l ≠ [] ∨ s.Nonempty) :
    (addMembers s l).1.Nonempty := by
  induction l generalizing s with
  | nil => exact h.resolve_left (not_not.mpr rfl)
  | cons member l ih => exact ih (insert member s) (.inr (Finset.insert_nonempty _ _))

theorem execSAdd_full (h : w.db.Full) (hargs : 2 ≤ args.length) : FullAfter (execSAdd env args) w := by
  unfold execSAdd
  split
  · next key members =>
      have hne : members.map text ≠ [] := by
        intro hnil
        rw [List.map_eq_nil_iff.mp hnil] at hargs
        simp at hargs
      refine .getOrInit h (fun _ _ ht => ht) (fun _ t ht _ => ?_) fun s e _ _ => ?_
      · exact .put_log ht (set_nonempty (addMembers_nonempty _ (.inl hne))) _ _
      · exact .put_log ((h.evict env _).but _) (set_nonempty (addMembers_nonempty _ (.inl hne))) _ _
  · exact h

/-- A removal of fewer members than there are leaves some. -/
theorem removeMembers_nonempty {s : Finset Bytes} {l : List Bytes} (h : l.length < s.card) :
    (removeMembers s l).1.Nonempty := by
  induction l generalizing s with
  | nil => exact Finset.card_pos.mp h
  | cons member l ih =>
      have hcard := Finset.pred_card_le_card_erase (s := s) (a := member)
      rw [List.length_cons] at h
      exact ih (by omega)

theorem randomKeys_length {c : Choices} {keys : Finset Bytes} {limit : Int} {l : List Bytes}
    (h : randomKeys c keys limit = some l) (hlimit : limit < keys.card) : l.length < keys.card := by
  rw [randomKeys, if_neg (by omega)] at h
  split at h
  · cases h
  · cases h
    have htake := List.length_take_le limit.toNat (c.order keys)
    omega

/-- A pop of fewer members than there are. -/
theorem popMembers_full (key : Slice) (rest : List Slice) (h : w.db.Full)
    (hpop : ∀ count s, popCount rest = some count → w.db.live env (text key) = some (.set s) →
      count < s.card) : FullAfter (popMembers env key rest) w := by
  rw [popMembers]
  refine .getAs h (fun _ _ ht => ht) (fun _ ht => ht) fun s e hlive hs => ?_
  obtain rfl := asSet_eq hs
  dsimp only
  split
  · exact h.evict env _
  · next count hcount =>
      have hlt := hpop count s hcount hlive
      rw [if_neg (by omega)]
      split
      · exact h.evict env _
      · next members hmembers =>
          have hne := removeMembers_nonempty (randomKeys_length hmembers hlt)
          refine FullAfter.put (w := { w with db := w.db.evict env (text key) }) ((h.evict env _).but _)
            (set_nonempty hne) ?_
          split
          · exact (log_fills _).bind fun _ => .pure _
          · exact .pure _

theorem execSPop_full (h : w.db.Full)
    (hpop : ∀ key rest count s, args = key :: rest → rest.length ≤ 1 → popCount rest = some count →
      w.db.live env (text key) = some (.set s) → count < s.card) : FullAfter (execSPop env args) w := by
  unfold execSPop
  split
  · exact popMembers_full _ _ h fun count s => hpop _ _ count s rfl (by simp)
  · exact popMembers_full _ _ h fun count s => hpop _ _ count s rfl (by simp)
  · exact h

theorem live_of_view_set {db : DB σ} {s : Finset Bytes} (h : db.view env Entity.asSet key = .ok (some s)) :
    db.live env key = some (.set s) := by
  obtain ⟨e, hlive, hs⟩ := DB.live_of_view env h
  rw [hlive, asSet_eq hs]

theorem live_of_view_none {α : Type} {view : Entity σ → Option α} {db : DB σ}
    (h : db.view env view key = .ok none) : db.live env key = none := by
  rw [DB.view] at h
  split at h
  · assumption
  · split at h
    · cases h
    · cases h

/-- Only the intersection of one set is stored: the copy that it starts with is empty. -/
theorem interLoop_result (env : Env σ) (keys : List Bytes) (w : World σ) :
    wp (interLoop env none keys) (fun r _ => ∀ s, r = some (.result (some s)) →
      ∃ key s', keys = [key] ∧ w.db.live env key = some (.set s')) w := by
  cases keys with
  | nil =>
      rintro s hs
      cases hs
  | cons key keys =>
      rw [interLoop, wp_bind, getAsSet, wp_getAs]
      cases hview : w.db.view env Entity.asSet key with
      | error e =>
          rintro s hs
          cases hs
      | ok r =>
          cases r with
          | none =>
              rintro s hs
              cases hs
          | some s' =>
              cases keys with
              | nil => exact fun s hs => ⟨key, s', rfl, live_of_view_set hview⟩
              | cons k keys =>
                  dsimp only
                  rw [interLoop, wp_bind, getAsSet, wp_getAs]
                  cases (w.db.evict env key).view env Entity.asSet k with
                  | error e =>
                      rintro s hs
                      cases hs
                  | ok r =>
                      cases r with
                      | none =>
                          rintro s hs
                          cases hs
                      | some t =>
                          dsimp only
                          rw [if_pos (by simp [makeSet])]
                          rintro s hs
                          cases hs

/-- Of a union that is stored no key holds another value than a set. -/
theorem unionLoop_result (env : Env σ) (keys : List Bytes) (result : Option (Finset Bytes)) (w : World σ) :
    wp (unionLoop env result keys) (fun r _ => ∀ s, r = some (.result (some s)) →
      (∀ key ∈ keys, w.db.live env key = none ∨ ∃ s', w.db.live env key = some (.set s')) ∧
        (result.isSome ∨ ∃ key ∈ keys, ∃ s', w.db.live env key = some (.set s'))) w := by
  induction keys generalizing result w with
  | nil =>
      rintro s hs
      cases hs
      exact ⟨by simp, .inl rfl⟩
  | cons key keys ih =>
      have hsame (k : Bytes) : (w.db.evict env key).live env k = w.db.live env k :=
        DB.live_eq ((w.db.keeps_evict key).2 k)
      have hrest (result : Option (Finset Bytes)) := ih result { w with db := w.db.evict env key }
      simp only [hsame] at hrest
      rw [unionLoop, wp_bind, getAsSet, wp_getAs]
      cases hview : w.db.view env Entity.asSet key with
      | error e =>
          rintro s hs
          cases hs
      | ok r =>
          cases r with
          | none =>
              apply wp_mono (hrest result)
              intro r _ hr s hs
              obtain ⟨hall, hsome⟩ := hr s hs
              refine ⟨List.forall_mem_cons.mpr ⟨.inl (live_of_view_none hview), hall⟩, hsome.imp_right ?_⟩
              rintro ⟨k, hk, h⟩
              exact ⟨k, List.mem_cons_of_mem _ hk, h⟩
          | some s' =>
              have hlive := live_of_view_set hview
              have hset : ∀ result, wp (unionLoop env result keys) (fun r _ => ∀ s, r = some (.result (some s)) →
                  (∀ k ∈ key :: keys, w.db.live env k = none ∨ ∃ s', w.db.live env k = some (.set s')) ∧
                  (result.isSome ∨ ∃ k ∈ key :: keys, ∃ s', w.db.live env k = some (.set s')))
                  { w with db := w.db.evict env key } := fun result =>
                wp_mono (hrest result) fun r _ hr s hs => ⟨List.forall_mem_cons.mpr
                  ⟨.inr ⟨s', hlive⟩, (hr s hs).1⟩, .inr ⟨key, List.mem_cons_self, s', hlive⟩⟩
              cases result with
              | none =>
                  exact wp_mono (hset _) fun r _ hr s hs => ⟨(hr s hs).1,
                    .inr ⟨key, List.mem_cons_self, s', hlive⟩⟩
              | some r => exact wp_mono (hset _) fun _ _ hr s hs => ⟨(hr s hs).1, .inl rfl⟩

/-- A difference is stored of a first key with a set and others that are not there. -/
theorem diffLoop_result (env : Env σ) (keys : List Bytes) (w : World σ) :
    wp (diffLoop env true none keys) (fun r _ => ∀ s, r = some (.result (some s)) →
      ∃ key keys' s', keys = key :: keys' ∧ w.db.live env key = some (.set s') ∧
        ∀ k ∈ keys', w.db.live env k = none) w := by
  have hrest (keys : List Bytes) (w : World σ) : wp (diffLoop env false (some ∅) keys) (fun r _ =>
      ∀ s, r = some (.result (some s)) → ∀ k ∈ keys, w.db.live env k = none) w := by
    induction keys generalizing w with
    | nil =>
        rintro s hs
        simp
    | cons key keys ih =>
        have hsame (k : Bytes) : (w.db.evict env key).live env k = w.db.live env k :=
          DB.live_eq ((w.db.keeps_evict key).2 k)
        have hkeys := ih { w with db := w.db.evict env key }
        simp only [hsame] at hkeys
        rw [diffLoop, wp_bind, getAsSet, wp_getAs]
        cases hview : w.db.view env Entity.asSet key with
        | error e =>
            rintro s hs
            cases hs
        | ok r =>
            cases r with
            | none => exact wp_mono hkeys fun r _ hr s hs =>
                List.forall_mem_cons.mpr ⟨live_of_view_none hview, hr s hs⟩
            | some t =>
                dsimp only
                rw [if_pos (by simp)]
                rintro s hs
                cases hs
  cases keys with
  | nil =>
      rintro s hs
      cases hs
  | cons key keys =>
      have hsame (k : Bytes) : (w.db.evict env key).live env k = w.db.live env k :=
        DB.live_eq ((w.db.keeps_evict key).2 k)
      have hkeys := hrest keys { w with db := w.db.evict env key }
      simp only [hsame] at hkeys
      rw [diffLoop, wp_bind, getAsSet, wp_getAs]
      cases hview : w.db.view env Entity.asSet key with
      | error e =>
          rintro s hs
          cases hs
      | ok r =>
          cases r with
          | none =>
              rintro s hs
              cases hs
          | some t => exact wp_mono hkeys fun r _ hr s hs =>
              ⟨key, keys, t, rfl, live_of_view_set hview, hr s hs⟩

/-- The loop over the keys, and what is done when it comes to no set. -/
theorem FullAfter.calculated {m : Exec σ Calculated} {f : Calculated → Exec σ Reply} (h : w.db.Full)
    (hm : Moves (Quiet env) m) (hresult : ∀ s, value m w ≠ some (.result (some s)))
    (hf : ∀ c, (∀ s, c ≠ .result (some s)) → Moves Fills (f c)) : FullAfter (m >>= f) w :=
  .bind h (fills_of_quiet hm) fun c _ hc ht =>
    .of_fills ht (hf c fun s hs => hresult s (hs ▸ hc))

theorem execSInterStore_full (h : w.db.Full)
    (hstore : ∀ dest key s, args = [dest, key] → w.db.live env (text key) ≠ some (.set s)) :
    FullAfter (execSInterStore env args) w := by
  unfold execSInterStore
  split
  · next dest keys =>
      refine .calculated h (interLoop_moves env none _) (fun s hs => ?_) fun c hc => ?_
      · obtain ⟨key, s', hkeys, hlive⟩ :=
          (wp_iff _ _ _).mp (interLoop_result env (keys.map text) w) s hs
        obtain ⟨key, rfl, rfl⟩ := List.map_eq_singleton_iff.mp hkeys
        exact hstore dest key s' rfl hlive
      · cases c with
        | answer e => exact .pure _
        | empty => exact (remove_fills _).bind fun _ => .pure _
        | result r =>
            cases r with
            | none => exact .panics
            | some s => exact absurd rfl (hc s)
  · exact h

theorem execSUnionStore_full (h : w.db.Full)
    (hstore : ∀ dest keys, args = dest :: keys →
      (∀ key ∈ keys, w.db.live env (text key) = none ∨ ∃ s, w.db.live env (text key) = some (.set s)) →
      ∀ key ∈ keys, w.db.live env (text key) = none) : FullAfter (execSUnionStore env args) w := by
  unfold execSUnionStore
  split
  · next dest keys =>
      refine .calculated h (unionLoop_moves env none _) (fun s hs => ?_) fun c hc => ?_
      · obtain ⟨hall, hsome⟩ := (wp_iff _ _ _).mp (unionLoop_result env (keys.map text) none w) s hs
        obtain ⟨k, hk, s', hlive⟩ := hsome.resolve_left Bool.false_ne_true
        rw [List.forall_mem_map] at hall
        obtain ⟨key, hkey, rfl⟩ := List.mem_map.mp hk
        rw [hstore dest keys rfl hall key hkey] at hlive
        cases hlive
      · cases c with
        | answer e => exact .pure _
        | empty => exact (remove_fills _).bind fun _ => .pure _
        | result r =>
            cases r with
            | none => exact (remove_fills _).bind fun _ => .pure _
            | some s => exact absurd rfl (hc s)
  · exact h

theorem execSDiffStore_full (h : w.db.Full)
    (hstore : ∀ dest key keys s, args = dest :: key :: keys →
      w.db.live env (text key) = some (.set s) → ∃ k ∈ keys, w.db.live env (text k) ≠ none) :
    FullAfter (execSDiffStore env args) w := by
  unfold execSDiffStore
  split
  · next dest keys =>
      refine .calculated h (diffLoop_moves env true none _) (fun s hs => ?_) fun c hc => ?_
      · obtain ⟨k, ks, s', hkeys, hlive, hnone⟩ :=
          (wp_iff _ _ _).mp (diffLoop_result env (keys.map text) w) s hs
        obtain ⟨key, keys', rfl, rfl, rfl⟩ := List.map_eq_cons_iff.mp hkeys
        obtain ⟨k, hk, hne⟩ := hstore dest key keys' s' rfl hlive
        exact hne (hnone _ (List.mem_map_of_mem hk))
      · cases c with
        | answer e => exact .pure _
        | empty => exact (remove_fills _).bind fun _ => .pure _
        | result r =>
            cases r with
            | none => exact (remove_fills _).bind fun _ => .pure _
            | some s => exact absurd rfl (hc s)
  · exact h

end

end Traitor.Database
