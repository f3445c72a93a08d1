import Mathlib.Data.Set.Insert
import Traitor.ReplayCommands

namespace Traitor.Database

open Lib.Effects Lib.Strconv Protocol

variable {σ α β : Type} {env : Env σ} {K : Set Bytes} {key : Bytes}

/-- Two databases that are the same but for keys that are expired and not removed yet, and
the same altogether under some keys. -/
def Similar (env : Env σ) (K : Set Bytes) (w w' : World σ) : Prop :=
  (∀ key, (w.db.slot key).evict env.now = (w'.db.slot key).evict env.now) ∧
    ∀ key ∈ K, w.db.slot key = w'.db.slot key

namespace Similar

variable {w w' : World σ}

theorem anti {K' : Set Bytes} (hK : K ⊆ K') (h : Similar env K' w w') : Similar env K w w' :=
  ⟨h.1, fun key hkey => h.2 key (hK hkey)⟩

theorem of_insert (h : Similar env (insert key K) w w') : Similar env K w w' :=
  h.anti (Set.subset_insert key K)

theorem univ_iff : Similar env Set.univ w w' ↔ w.db.slot = w'.db.slot :=
  ⟨fun h => funext fun key => h.2 key trivial, fun h => ⟨fun key => by rw [h], fun key _ => by rw [h]⟩⟩

theorem live_eq (h : Similar env K w w') (key : Bytes) :
    w.db.live env key = w'.db.live env key := by
  have hlive (s : Slot σ) : s.live env.now = (s.evict env.now).live env.now := by
    by_cases hs : s.data.isSome = true ∧ s.isExpired env.now = true
    · rw [Slot.evict, if_pos hs, Slot.live, if_pos hs.2]
      rfl
    · rw [Slot.evict, if_neg hs]
  rw [DB.live_slot, DB.live_slot, hlive, hlive (w'.db.slot key), h.1 key]

/-- The same change of one slot in both. -/
theorem change {f : DB σ → DB σ} {g : Slot σ → Slot σ}
    (hf : ∀ (db : DB σ) k, (f db).slot k = if k = key then g (db.slot key) else db.slot k)
    (h : Similar env K w w') (hg : g (w.db.slot key) = g (w'.db.slot key)) :
    Similar env (insert key K) { w with db := f w.db } { w' with db := f w'.db } := by
  refine ⟨fun k => ?_, fun k hk => ?_⟩
  · simp only [hf]
    split
    · rw [hg]
    · exact h.1 k
  · simp only [hf]
    split
    · exact hg
    · rename_i hne
      exact h.2 k (hk.resolve_left hne)

end Similar

/-- The same value from similar databases, and similar ones again. -/
def Alike (env : Env σ) (K : Set Bytes) (m : Exec σ α) : Prop :=
  Relates (Similar env K) (fun _ => Similar env K) m

/-- The key is looked at, and removed where it is expired. -/
def Looks (env : Env σ) (K : Set Bytes) (key : Bytes) (m : Exec σ α) : Prop :=
  Relates (Similar env K) (fun _ => Similar env (insert key K)) m

namespace Alike

variable {m : Exec σ α} {f : α → Exec σ β}

@[simp] theorem pure (a : α) : Alike env K (Pure.pure a) := Relates.pure fun _ _ h => h

@[simp] theorem panics : Alike env K (Lib.Effects.panics : Exec σ α) := Relates.panics fun _ _ h => h

theorem looked (hm : Alike env (insert key K) m) :
    Relates (Similar env (insert key K)) (fun _ => Similar env K) m :=
  Relates.mono hm (fun _ _ h => h) fun _ _ _ h => h.of_insert

theorem bind (hm : Alike env K m) (hf : ∀ a, Alike env K (f a)) : Alike env K (m >>= f) :=
  Relates.bind hm hf fun _ _ h => h

end Alike

namespace Looks

variable {m : Exec σ α} {f : α → Exec σ β}

theorem bind (hm : Looks env K key m) (hf : ∀ a, Alike env (insert key K) (f a)) :
    Alike env K (m >>= f) :=
  Relates.bind hm (fun a => (hf a).looked) fun _ _ h => h.of_insert

theorem bind_looks (hm : Looks env K key m) (hf : ∀ a, Alike env (insert key K) (f a)) :
    Looks env K key (m >>= f) := Relates.bind hm hf fun _ _ h => h

theorem alike (hm : Looks env K key m) : Alike env K m :=
  Relates.mono hm (fun _ _ h => h) fun _ _ _ h => h.of_insert

end Looks

theorem mem_looked : key ∈ insert key K := Set.mem_insert key K

theorem addAof_alike (line : CmdLine) : Alike env K (addAof line) := fun _ _ h => ⟨rfl, h⟩

/-- A change of a slot that does not depend on what is there, unless it is the same. -/
theorem modifyDB_alike {f : DB σ → DB σ} {g : Slot σ → Slot σ} (h : key ∈ K)
    (hf : ∀ (db : DB σ) k, (f db).slot k = if k = key then g (db.slot key) else db.slot k) :
    Alike env K (modifyDB f) :=
  fun _ _ hw => ⟨rfl, (hw.change hf (congrArg g (hw.2 key h))).of_insert⟩

theorem put_alike (h : key ∈ K) (entity : Entity σ) : Alike env K (putEntity key entity) :=
  modifyDB_alike (g := fun s => ⟨some entity, s.ttl⟩) h fun _ _ => DB.slot_put entity

theorem expire_alike (h : key ∈ K) (expireTime : Int) : Alike env K (expire key expireTime) :=
  modifyDB_alike (g := fun s => ⟨s.data, some expireTime⟩) h fun _ _ => DB.slot_expire expireTime

theorem persist_alike (h : key ∈ K) : Alike env K (persist key) :=
  modifyDB_alike (g := fun s => ⟨s.data, none⟩) h fun _ _ => DB.slot_persist

theorem remove_looks (key : Bytes) : Looks env K key (remove key) :=
  fun _ _ hw => ⟨rfl, hw.change (g := fun _ => .empty) (fun _ _ => DB.slot_remove) rfl⟩

theorem remove_alike (key : Bytes) : Alike env K (remove key) := (remove_looks key).alike

/-- After a write under the key, which may have left it its old expiration. -/
def Written (env : Env σ) (K : Set Bytes) (key : Bytes) (w w' : World σ) : Prop :=
  (w.db.slot key).data = (w'.db.slot key).data ∧
    ∀ k ≠ key, (w.db.slot k).evict env.now = (w'.db.slot k).evict env.now ∧
      (k ∈ K → w.db.slot k = w'.db.slot k)

theorem put_written (key : Bytes) (entity : Entity σ) :
    Relates (Similar env K) (fun r => match r with
      | none => Similar env K
      | some _ => Written env K key) (putEntity key entity) := by
  intro w w' h
  have hfinal (w : World σ) : final (putEntity key entity) w = { w with db := w.db.put key entity } := rfl
  refine ⟨rfl, ?_, fun k hk => ?_⟩
  · simp [hfinal]
  · simpa [hfinal, hk] using ⟨h.1 k, h.2 k⟩

/-- The expiration is set or removed, whatever it was. -/
theorem modifyTTL_looks {f : DB σ → DB σ} {ttl : Option Int}
    (hf : ∀ (db : DB σ) k, (f db).slot k = if k = key then ⟨(db.slot key).data, ttl⟩ else db.slot k) :
    Relates (Written env K key) (fun _ => Similar env (insert key K)) (modifyDB f) := by
  intro w w' h
  have hfinal (w : World σ) : final (modifyDB f) w = { w with db := f w.db } := rfl
  have hkey : (f w.db).slot key = (f w'.db).slot key := by simp [hf, h.1]
  refine ⟨rfl, fun k => ?_, fun k hk => ?_⟩
  · by_cases hne : k = key
    · exact hne ▸ congrArg (Slot.evict · _) hkey
    · simpa [hfinal, hf, hne] using (h.2 k hne).1
  · by_cases hne : k = key
    · exact hne ▸ hkey
    · simpa [hfinal, hf, hne] using (h.2 k hne).2 (hk.resolve_left hne)

theorem expire_written (key : Bytes) (expireTime : Int) : Relates (Written env K key)
    (fun _ => Similar env (insert key K)) (expire (σ := σ) key expireTime) :=
  modifyTTL_looks fun _ _ => DB.slot_expire expireTime

theorem persist_written (key : Bytes) : Relates (Written env K key)
    (fun _ => Similar env (insert key K)) (persist (σ := σ) key) :=
  modifyTTL_looks fun _ _ => DB.slot_persist

theorem has_alike (h : key ∈ K) : Alike env K (has key) := by
  refine fun w w' hw => ⟨?_, hw⟩
  have hdata : w.db.data.lookup key = w'.db.data.lookup key := congrArg Slot.data (hw.2 key h)
  exact congrArg (some ·.isSome) hdata

theorem getTTL_alike (h : key ∈ K) : Alike env K (getTTL key) :=
  fun _ _ hw => ⟨congrArg (fun s : Slot σ => some s.ttl) (hw.2 key h), hw⟩

theorem evict_similar {w w' : World σ} (h : Similar env K w w') (key : Bytes) :
    Similar env (insert key K) { w with db := w.db.evict env key }
      { w' with db := w'.db.evict env key } :=
  h.change (f := (·.evict env key)) (g := (·.evict env.now)) (fun _ _ => DB.slot_evict) (h.1 key)

theorem getEntity_looks (key : Bytes) : Looks env K key (getEntity env key) := by
  intro w w' h
  have hget (w : World σ) : value (getEntity env key) w = some (w.db.live env key) ∧
      final (getEntity env key) w = { w with db := w.db.evict env key } :=
    (wp_iff _ (fun r w'' => r = some (w.db.live env key) ∧
      w'' = { w with db := w.db.evict env key }) w).mp (by simp [wp_getEntity])
  rw [(hget w).1, (hget w').1, (hget w).2, (hget w').2, h.live_eq]
  exact ⟨rfl, evict_similar h key⟩

theorem getAs_looks (view : Entity σ → Option α) (key : Bytes) :
    Looks env K key (getAs env view key) := by
  apply (getEntity_looks key).bind_looks
  intro r
  split
  · exact .pure _
  · split <;> exact .pure _

theorem getAsString_looks (key : Bytes) : Looks env K key (getAsString env key) := by
  apply (getAs_looks _ key).bind_looks
  intro r
  split <;> exact .pure _

theorem getOrInit_looks (view : Entity σ → Option α) (entity : α → Entity σ) (make : α)
    (key : Bytes) : Looks env K key (getOrInit env view entity make key) := by
  apply (getAs_looks view key).bind_looks
  intro r
  split
  · exact .pure _
  · exact .pure _
  · exact (put_alike mem_looked _).bind fun _ => .pure _

/-- The line is only kept for a change. -/
theorem logIf_alike (c : Prop) [Decidable c] (line : CmdLine) (a : α) :
    Alike env K (do
      if c then addAof line
      return a) := by
  dsimp only
  split
  · exact (addAof_alike _).bind fun _ => .pure _
  · exact .pure _

/-- A change of a key that was looked at, and the line for it. -/
theorem put_log_alike (h : key ∈ K) (entity : Entity σ) (line : CmdLine) (a : α) :
    Alike env K (do
      putEntity key entity
      addAof line
      return a) :=
  (put_alike h _).bind fun _ => (addAof_alike _).bind fun _ => .pure _

end Traitor.Database
