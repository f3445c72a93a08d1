import Traitor.Router

namespace Traitor.Database

open Lib.Effects Lib.Strconv Protocol

variable {σ : Type} (env : Env σ)

namespace DB

def SameAt (db db' : DB σ) (key : Bytes) : Prop :=
  db'.data.lookup key = db.data.lookup key ∧ db'.ttlMap.lookup key = db.ttlMap.lookup key

def Evicted (db db' : DB σ) (key : Bytes) : Prop :=
  db.isExpired env key ∧ db'.data.lookup key = none ∧ db'.ttlMap.lookup key = none

/-- Keys that are expired may have been removed. -/
def Keeps (db db' : DB σ) : Prop :=
  db'.versionMap = db.versionMap ∧ ∀ key, db.SameAt db' key ∨ db.Evicted env db' key

variable {env} {db db' db'' : DB σ} {key : Bytes}

theorem SameAt.isExpired_eq (h : db.SameAt db' key) : db'.isExpired env key = db.isExpired env key := by
  rw [isExpired, h.2, isExpired]

theorem Evicted.not_isExpired (h : db.Evicted env db' key) : db'.isExpired env key = false := by
  rw [isExpired, h.2.2]

theorem Keeps.refl (db : DB σ) : db.Keeps env db := ⟨rfl, fun _ => .inl ⟨rfl, rfl⟩⟩

theorem Keeps.trans (h : db.Keeps env db') (h' : db'.Keeps env db'') : db.Keeps env db'' := by
  refine ⟨h'.1.trans h.1, fun key => ?_⟩
  rcases h.2 key, h'.2 key with ⟨hsame | hout, hsame' | hout'⟩
  · exact .inl ⟨hsame'.1.trans hsame.1, hsame'.2.trans hsame.2⟩
  · exact .inr ⟨hsame.isExpired_eq ▸ hout'.1, hout'.2⟩
  · exact .inr ⟨hout.1, hsame'.1.trans hout.2.1, hsame'.2.trans hout.2.2⟩
  · simp [Evicted, hout.not_isExpired] at hout'

theorem keeps_remove (h : db.isExpired env key) : db.Keeps env (db.remove key) := by
  refine ⟨rfl, fun k => ?_⟩
  by_cases hk : k = key
  · subst k
    exact .inr ⟨h, by simp [remove], by simp [remove]⟩
  · exact .inl ⟨by simp [remove, hk], by simp [remove, hk]⟩

theorem keeps_evict (db : DB σ) (key : Bytes) : db.Keeps env (db.evict env key) := by
  rw [evict]
  split
  · rename_i h
    exact keeps_remove h.2
  · exact .refl db

/-- Putting back what is there changes nothing. -/
theorem keeps_put {entity : Entity σ} (h : db.data.lookup key = some entity) :
    db.Keeps env (db.put key entity) := by
  refine ⟨rfl, fun k => .inl ⟨?_, rfl⟩⟩
  by_cases hk : k = key
  · subst k
    simp [put, h]
  · simp [put, hk]

theorem live_eq (h : db.SameAt db' key ∨ db.Evicted env db' key) :
    db'.live env key = db.live env key := by
  rcases h with hsame | hout
  · rw [live, live, hsame.isExpired_eq, hsame.1]
  · simp [live, hout.not_isExpired, hout.1, hout.2.1]

end DB

/-- Nothing but evictions, no line and no new version. -/
def Quiet (w w' : World σ) : Prop := w'.aof = w.aof ∧ w.db.Keeps env w'.db

instance : Std.Refl (Quiet env) := ⟨fun w => ⟨rfl, .refl w.db⟩⟩

instance : IsTrans (World σ) (Quiet env) :=
  ⟨fun _ _ _ h h' => ⟨h'.1.trans h.1, h.2.trans h'.2⟩⟩

@[simp] theorem wp_modifyDB (f : DB σ → DB σ) (Q : Option PUnit → World σ → Prop) (w : World σ) :
    wp (modifyDB f) Q w = Q (some ⟨⟩) { w with db := f w.db } := rfl

@[simp] theorem wp_addAof (line : CmdLine) (Q : Option PUnit → World σ → Prop) (w : World σ) :
    wp (addAof line) Q w = Q (some ⟨⟩) { w with aof := w.aof ++ [line] } := rfl

/-- What `getEntity` finds, and the state it leaves. -/
theorem wp_getEntity (key : Bytes) (Q : Option (Option (Entity σ)) → World σ → Prop)
    (w : World σ) :
    wp (getEntity env key) Q w =
      Q (some (w.db.live env key)) { w with db := w.db.evict env key } := by
  simp only [getEntity, wp_bind, wp_get, DB.live, DB.evict]
  cases hl : w.db.data.lookup key with
  | none => simp
  | some entity =>
      by_cases he : w.db.isExpired env key
      · simp [isExpired, he, remove]
      · simp [isExpired, he]

def DB.view {α : Type} (db : DB σ) (view : Entity σ → Option α) (key : Bytes) :
    Except Reply (Option α) :=
  match db.live env key with
  | none => .ok none
  | some entity =>
      match view entity with
      | none => .error .wrongTypeErr
      | some a => .ok (some a)

theorem wp_getAs {α : Type} (view : Entity σ → Option α) (key : Bytes)
    (Q : Option (Except Reply (Option α)) → World σ → Prop) (w : World σ) :
    wp (getAs env view key) Q w =
      Q (some (w.db.view env view key)) { w with db := w.db.evict env key } := by
  simp only [getAs, wp_bind, wp_getEntity, DB.view]
  cases w.db.live env key with
  | none => rfl
  | some entity =>
      dsimp only
      cases view entity <;> rfl

theorem DB.lookup_evict {db : DB σ} {key : Bytes} {entity : Entity σ}
    (h : db.live env key = some entity) : (db.evict env key).data.lookup key = some entity := by
  rw [DB.live] at h
  split at h
  · simp at h
  · rename_i he
    rwa [DB.evict, if_neg fun hd => he hd.2]

theorem DB.evict_of_live {env : Env σ} {db : DB σ} {key : Bytes} {e : Entity σ} (h : db.live env key = some e) :
    db.evict env key = db := by
  rw [DB.evict, if_neg]
  rintro ⟨-, he⟩
  simp [DB.live, he] at h

theorem DB.live_of_view {α : Type} {db : DB σ} {view : Entity σ → Option α} {key : Bytes} {a : α}
    (h : db.view env view key = .ok (some a)) :
    ∃ entity, db.live env key = some entity ∧ view entity = some a := by
  rw [DB.view] at h
  split at h
  · simp at h
  · rename_i entity hlive
    split at h
    · simp at h
    · rename_i b hb
      obtain rfl := Option.some.inj (Except.ok.inj h)
      exact ⟨entity, hlive, hb⟩

theorem getEntity_moves (key : Bytes) : Moves (Quiet env) (getEntity env key) := by
  intro w
  rw [wp_getEntity]
  exact ⟨rfl, DB.keeps_evict w.db key⟩

theorem getAs_moves {α : Type} (view : Entity σ → Option α) (key : Bytes) :
    Moves (Quiet env) (getAs env view key) := by
  intro w
  rw [wp_getAs]
  exact ⟨rfl, DB.keeps_evict w.db key⟩

theorem getAsString_moves (key : Bytes) : Moves (Quiet env) (getAsString env key) := by
  apply (getAs_moves env _ key).bind
  intro r
  split <;> simp

theorem getTTL_moves (key : Bytes) : Moves (Quiet env) (getTTL key) := fun w => refl_of (Quiet env) w

end Traitor.Database
