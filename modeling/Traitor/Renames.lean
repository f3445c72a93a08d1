import Traitor.LazyExpiry

namespace Traitor.Database

open Lib.Effects Lib.Strconv Protocol

variable {σ : Type} {env : Env σ} {w : World σ}

/-- The value and the expiration of the source are under the destination, and nothing else has changed. -/
structure Renamed (w t : World σ) (src dest : Bytes) : Prop where
  moved : t.db.slot dest = w.db.slot src
  gone : src ≠ dest → (t.db.slot src).data = none
  timed : ∀ key, (t.db.slot key).ttl.isSome → (t.db.slot key).data.isSome
  others : ∀ key, key ≠ src → key ≠ dest → t.db.slot key = w.db.slot key
  same : src = dest → ∀ key, t.db.slot key = w.db.slot key

def RenamesTo (env : Env σ) (w : World σ) (src dest : Slice) : Prop :=
  ∃ reply t, Runs (execRename env [src, dest]) w reply t ∧ Renamed w t (text src) (text dest)

variable {src dest : Slice} {e : Entity σ}

theorem data_of_live {key : Bytes} (h : w.db.live env key = some e) : (w.db.slot key).data = some e := by
  rw [DB.live] at h
  split at h
  · cases h
  · exact h

/-- A key that is renamed to itself is removed; its expiration is put back without it. -/
theorem execRename_self (h : w.db.live env (text src) = some e) (heq : text src = text dest) :
    value (execRename env [src, dest]) w = some .ok ∧
      (final (execRename env [src, dest]) w).db.slot (text dest) = ⟨none, (w.db.slot (text src)).ttl⟩ := by
  have hevict : w.db.evict env (text src) = w.db := DB.evict_of_live h
  have httl : w.db.ttlMap.lookup (text src) = (w.db.slot (text src)).ttl := rfl
  refine (wp_iff _ (fun r w' => r = some Reply.ok ∧
    w'.db.slot (text dest) = ⟨none, (w.db.slot (text src)).ttl⟩) w).mp ?_
  simp only [execRename, wp_bind, wp_getEntity, h, getTTL, wp_get, wp_pure, hevict, httl, putEntity, remove,
    wp_modifyDB]
  rw [heq]
  cases (w.db.slot (text dest)).ttl with
  | none =>
      refine ⟨trivial, ?_⟩
      simp [Slot.empty]
  | some t =>
      refine ⟨trivial, ?_⟩
      simp [Slot.empty]

theorem not_renames_self (h : w.db.live env (text src) = some e) (heq : text src = text dest) :
    ¬ RenamesTo env w src dest := by
  rintro ⟨reply, t, hrun, hrenamed⟩
  have hslot := (execRename_self h heq).2
  rw [hrun.final, hrenamed.moved] at hslot
  have hdata := congrArg Slot.data hslot
  rw [data_of_live h] at hdata
  cases hdata

/-- The destination keeps its expiration if the source has none. -/
theorem renames_iff_of_ne (h : w.db.live env (text src) = some e) (hne : text src ≠ text dest) :
    RenamesTo env w src dest ↔
      ((w.db.slot (text src)).ttl ≠ none ∨ (w.db.slot (text dest)).ttl = none) ∧
        ∀ key, key ≠ text src → key ≠ text dest → (w.db.slot key).ttl.isSome → (w.db.slot key).data.isSome := by
  obtain ⟨hvalue, hslot⟩ := execRename_of_some h hne
  have hrun := Runs.of_value hvalue
  have hsrc : w.db.slot (text src) = ⟨some e, (w.db.slot (text src)).ttl⟩ := by
    rw [← data_of_live h]
  have hmoved : (⟨some e, (w.db.slot (text src)).ttl <|> (w.db.slot (text dest)).ttl⟩ : Slot σ) =
      w.db.slot (text src) ↔ (w.db.slot (text src)).ttl ≠ none ∨ (w.db.slot (text dest)).ttl = none := by
    rw [hsrc]
    cases (w.db.slot (text src)).ttl <;> simp
  constructor
  · rintro ⟨reply, t, hrun', hrenamed⟩
    obtain ⟨-, rfl⟩ := hrun.unique hrun'
    have hdest := hslot (text dest)
    rw [if_pos rfl, hrenamed.moved] at hdest
    refine ⟨hmoved.mp hdest.symm, fun key hks hkd httl => ?_⟩
    have htimed := hrenamed.timed key
    rw [hslot, if_neg hkd, if_neg hks] at htimed
    exact htimed httl
  · rintro ⟨httl, htimed⟩
    refine ⟨.ok, _, hrun, ?_, fun _ => ?_, fun key => ?_, fun key hks hkd => ?_, fun heq => absurd heq hne⟩
    · rw [hslot, if_pos rfl, hmoved.mpr httl]
    · rw [hslot, if_neg hne, if_pos rfl]
      rfl
    · rw [hslot]
      split
      · exact fun _ => rfl
      · split
        · exact fun hempty => absurd hempty Bool.false_ne_true
        · next hkd hks => exact htimed key hks hkd
    · rw [hslot, if_neg hkd, if_neg hks]

/-- `RENAME` moves value and expiration exactly when the keys differ, the source has an expiration or the
destination has none, and no other key had one without being there. -/
theorem renames_iff (h : w.db.live env (text src) = some e) :
    RenamesTo env w src dest ↔
      text src ≠ text dest ∧ ((w.db.slot (text src)).ttl ≠ none ∨ (w.db.slot (text dest)).ttl = none) ∧
        ∀ key, key ≠ text src → key ≠ text dest → (w.db.slot key).ttl.isSome → (w.db.slot key).data.isSome := by
  by_cases heq : text src = text dest
  · exact iff_of_false (not_renames_self h heq) fun hcond => hcond.1 heq
  · rw [and_iff_right heq]
    exact renames_iff_of_ne h heq

def oneString : World ℤ where
  db := { data := (∅ : Dict (Entity ℤ)).insert (bytes "a") (.str (some (bytes "1")))
          ttlMap := (∅ : Dict Int).insert (bytes "a") 100
          versionMap := fun _ => 0 }
  aof := []

theorem oneString_live : oneString.db.live (Env.plain 0) (bytes "a") = some (.str (some (bytes "1"))) := by
  rw [DB.live, DB.isExpired, oneString]
  simp only [Finmap.lookup_insert]
  rfl

theorem renames_iff_oneString : RenamesTo (Env.plain 0) oneString (some (bytes "a")) (some (bytes "b")) := by
  have hiff := @renames_iff ℤ _ _ (some (bytes "a")) (some (bytes "b")) _ oneString_live
  refine hiff.mpr ⟨by decide, .inl ?_, fun key hks _ httl => ?_⟩
  · have hlookup : oneString.db.ttlMap.lookup (bytes "a") = some 100 := Finmap.lookup_insert _
    exact fun hnone => Option.some_ne_none _ (hlookup.symm.trans hnone)
  · have hlookup : oneString.db.ttlMap.lookup key = none := Finmap.lookup_insert_of_ne _ hks
    change (oneString.db.ttlMap.lookup key).isSome at httl
    rw [hlookup] at httl
    cases httl

/-- A key is gone after it was renamed to itself. -/
theorem self_rename_removes : ¬ RenamesTo (Env.plain 0) oneString (some (bytes "a")) (some (bytes "a")) :=
  @not_renames_self ℤ _ _ (some (bytes "a")) _ _ oneString_live rfl

end Traitor.Database
