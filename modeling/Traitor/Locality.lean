import Mathlib.Data.Set.Insert
import Traitor.ListSizes

namespace Traitor.Database

open Lib.Effects Lib.Strconv Protocol

variable {σ α β : Type} {env : Env σ} {W R : Set Bytes} {key : Bytes}

def World.Timeless (w : World σ) : Prop := w.db.ttlMap = ∅

def SameUnder (K : Set Bytes) (w w' : World σ) : Prop :=
  w.Timeless ∧ w'.Timeless ∧ ∀ key ∈ K, w.db.data.lookup key = w'.db.data.lookup key

/-- On databases without times to live the program changes keys of `W` only, depends on those and on
keys of `R`, and gives values in `Q`. -/
structure Local (W R : Set Bytes) (Q : α → Prop) (m : Exec σ α) : Prop where
  relates : Relates (SameUnder (W ∪ R)) (fun _ => SameUnder (W ∪ R)) m
  frame : ∀ w : World σ, w.Timeless → ∀ key ∉ W,
    (final m w).db.data.lookup key = w.db.data.lookup key
  gives : ∀ w : World σ, w.Timeless → ∀ a, value m w = some a → Q a

namespace World.Timeless

variable {w : World σ} (h : w.Timeless)

include h

theorem sameUnder (K : Set Bytes) : SameUnder K w w := ⟨h, h, fun _ _ => rfl⟩

theorem isExpired_eq (env : Env σ) (key : Bytes) : w.db.isExpired env key = false := by
  rw [DB.isExpired, h, Finmap.lookup_empty]

theorem live_eq (env : Env σ) (key : Bytes) : w.db.live env key = w.db.data.lookup key := by
  rw [DB.live, h.isExpired_eq, if_neg Bool.false_ne_true]

theorem evict_eq (env : Env σ) (key : Bytes) : w.db.evict env key = w.db := by
  rw [DB.evict, h.isExpired_eq, if_neg (by simp)]

end World.Timeless

namespace Local

variable {Q : α → Prop} {Q' : β → Prop} {m : Exec σ α} {f : α → Exec σ β}

theorem timeless (h : Local W R Q m) {w : World σ} (hw : w.Timeless) : (final m w).Timeless :=
  (h.relates w w (hw.sameUnder _)).2.1

theorem pure {a : α} (h : Q a) : Local W R Q (Pure.pure a : Exec σ α) where
  relates := Relates.pure fun _ _ h => h
  frame _ _ _ _ := rfl
  gives _ _ _ ha := Option.some.inj ha ▸ h

theorem panics : Local W R Q (Lib.Effects.panics : Exec σ α) where
  relates := Relates.panics fun _ _ h => h
  frame _ _ _ _ := rfl
  gives _ _ _ ha := by cases ha

theorem bind (hm : Local W R Q m) (hf : ∀ a, Q a → Local W R Q' (f a)) : Local W R Q' (m >>= f) where
  relates s t hst := by
    obtain ⟨hvalue, hfinal⟩ := hm.relates s t hst
    rw [value_bind, value_bind, final_bind, final_bind, ← hvalue]
    cases hv : value m s with
    | none => exact ⟨rfl, hfinal⟩
    | some a => exact (hf a (hm.gives s hst.1 a hv)).relates _ _ hfinal
  frame w hw key hkey := by
    rw [final_bind]
    cases hv : value m w with
    | none => exact hm.frame w hw key hkey
    | some a =>
        exact ((hf a (hm.gives w hw a hv)).frame _ (hm.timeless hw) key hkey).trans (hm.frame w hw key hkey)
  gives w hw b hb := by
    rw [value_bind] at hb
    cases hv : value m w with
    | none =>
        rw [hv] at hb
        cases hb
    | some a =>
        rw [hv] at hb
        exact (hf a (hm.gives w hw a hv)).gives _ (hm.timeless hw) b hb

theorem mono {P : α → Prop} (hm : Local W R Q m) (h : ∀ a, Q a → P a) : Local W R P m :=
  ⟨hm.relates, hm.frame, fun w hw a ha => h a (hm.gives w hw a ha)⟩

/-- A program that only reads what is the same. -/
theorem of_reads {r : World σ → α} (hm : ∀ w : World σ, w.Timeless → value m w = some (r w) ∧ final m w = w)
    (hr : ∀ w w' : World σ, SameUnder (W ∪ R) w w' → r w = r w')
    (hQ : ∀ w : World σ, w.Timeless → Q (r w)) : Local W R Q m where
  relates w w' h := by
    obtain ⟨hvalue, hfinal⟩ := hm w h.1
    obtain ⟨hvalue', hfinal'⟩ := hm w' h.2.1
    rw [hvalue, hvalue', hfinal, hfinal', hr w w' h]
    exact ⟨rfl, h⟩
  frame w hw key _ := by rw [(hm w hw).2]
  gives w hw a ha := by
    rw [(hm w hw).1] at ha
    exact Option.some.inj ha ▸ hQ w hw

end Local

/-- What is local to some keys is so to more. -/
theorem Local.widen {W' R' : Set Bytes} {Q : α → Prop} {m : Exec σ α} (h : Local W R Q m) (hW : W ⊆ W')
    (hR : R ⊆ W' ∪ R') : Local W' R' Q m where
  relates w w' hw := by
    have hnarrow : SameUnder (W ∪ R) w w' := by
      refine ⟨hw.1, hw.2.1, fun key hkey => hw.2.2 key ?_⟩
      rcases hkey with hkey | hkey
      · exact .inl (hW hkey)
      · exact hR hkey
    obtain ⟨hvalue, hsame⟩ := h.relates w w' hnarrow
    refine ⟨hvalue, hsame.1, hsame.2.1, fun key hkey => ?_⟩
    by_cases hwritten : key ∈ W
    · exact hsame.2.2 key (.inl hwritten)
    · rw [h.frame w hw.1 key hwritten, h.frame w' hw.2.1 key hwritten]
      exact hw.2.2 key hkey
  frame w hw key hkey := h.frame w hw key fun hwritten => hkey (hW hwritten)
  gives := h.gives

abbrev Confined (W R : Set Bytes) (m : Exec σ α) : Prop := Local W R (fun _ => True) m

theorem Local.confined {Q : α → Prop} {m : Exec σ α} (h : Local W R Q m) : Confined W R m :=
  h.mono fun _ _ => trivial

theorem Local.seq {Q : β → Prop} {m : Exec σ α} {f : α → Exec σ β} (hm : Confined W R m)
    (hf : ∀ a, Local W R Q (f a)) : Local W R Q (m >>= f) := hm.bind fun a _ => hf a

theorem addAof_confined (line : CmdLine) : Confined W R (addAof line : Exec σ PUnit) where
  relates _ _ h := ⟨rfl, h⟩
  frame _ _ _ _ := rfl
  gives _ _ _ _ := trivial

theorem put_confined (h : key ∈ W) (entity : Entity σ) : Confined W R (putEntity key entity) where
  relates w w' hw := by
    refine ⟨rfl, hw.1, hw.2.1, fun k hk => ?_⟩
    have hfinal (w : World σ) : (final (putEntity key entity) w).db = w.db.put key entity := rfl
    rw [hfinal, hfinal, lookup_put, lookup_put, hw.2.2 k hk]
  frame w _ k hk := by
    have hfinal : (final (putEntity key entity) w).db = w.db.put key entity := rfl
    rw [hfinal, lookup_put, if_neg]
    rintro rfl
    exact hk h
  gives _ _ _ _ := trivial

theorem lookup_remove (db : DB σ) (key k : Bytes) :
    (db.remove key).data.lookup k = if k = key then none else db.data.lookup k := by
  split
  · next hk => rw [hk, DB.remove, Finmap.lookup_erase]
  · next hk => rw [DB.remove, Finmap.lookup_erase_ne hk]

theorem erase_timeless {w : World σ} (h : w.Timeless) (key : Bytes) : w.db.ttlMap.erase key = ∅ := by
  rw [h]
  exact Lib.FiniteMaps.erase_absent (Finmap.lookup_empty key)

theorem remove_confined (h : key ∈ W) : Confined W R (remove key : Exec σ PUnit) where
  relates w w' hw := by
    refine ⟨rfl, erase_timeless hw.1 key, erase_timeless hw.2.1 key, fun k hk => ?_⟩
    have hfinal (w : World σ) : (final (remove key) w).db = w.db.remove key := rfl
    rw [hfinal, hfinal, lookup_remove, lookup_remove, hw.2.2 k hk]
  frame w _ k hk := by
    have hfinal : (final (remove key) w).db = w.db.remove key := rfl
    rw [hfinal, lookup_remove, if_neg]
    rintro rfl
    exact hk h
  gives _ _ _ _ := trivial

theorem persist_confined (key : Bytes) : Confined W R (persist key : Exec σ PUnit) where
  relates _ _ hw := ⟨rfl, erase_timeless hw.1 key, erase_timeless hw.2.1 key, hw.2.2⟩
  frame _ _ _ _ := rfl
  gives _ _ _ _ := trivial

theorem has_confined (h : key ∈ W ∪ R) : Confined W R (has key : Exec σ Bool) :=
  .of_reads (r := fun w : World σ => (w.db.data.lookup key).isSome) (fun _ _ => ⟨rfl, rfl⟩)
    (fun w w' hw => by rw [hw.2.2 key h]) fun _ _ => trivial

theorem getTTL_local (key : Bytes) : Local W R (· = none) (getTTL key : Exec σ (Option Int)) :=
  .of_reads (r := fun _ => none) (fun w hw => ⟨by
    have hvalue : value (getTTL key) w = some (w.db.ttlMap.lookup key) := rfl
    rw [hvalue, hw, Finmap.lookup_empty], rfl⟩) (fun _ _ _ => rfl) fun _ _ => rfl

theorem getEntity_confined (h : key ∈ W ∪ R) : Confined W R (getEntity env key) := by
  refine .of_reads (r := fun w : World σ => w.db.data.lookup key) (fun w hw => ?_)
    (fun w w' hw => hw.2.2 key h) fun _ _ => trivial
  apply (wp_iff _ (fun r w' => r = some (w.db.data.lookup key) ∧ w' = w) w).mp
  rw [wp_getEntity, hw.live_eq, hw.evict_eq]
  exact ⟨rfl, rfl⟩

theorem getAs_confined (h : key ∈ W ∪ R) (view : Entity σ → Option α) : Confined W R (getAs env view key) := by
  apply (getEntity_confined h).seq
  intro r
  split
  · exact .pure trivial
  · split
    · exact .pure trivial
    · exact .pure trivial

theorem getOrInit_confined (h : key ∈ W) (view : Entity σ → Option α) (entity : α → Entity σ) (make : α) :
    Confined W R (getOrInit env view entity make key) := by
  apply (getAs_confined (.inl h) view).seq
  intro r
  split
  · exact .pure trivial
  · exact .pure trivial
  · exact (put_confined h _).seq fun _ => .pure trivial

theorem put_log_confined (h : key ∈ W) (entity : Entity σ) (line : CmdLine) (reply : Reply) :
    Confined W R (do
      putEntity key entity
      addAof line
      return reply : Exec σ Reply) :=
  (put_confined h _).seq fun _ => (addAof_confined _).seq fun _ => .pure trivial

theorem log_confined (line : CmdLine) (reply : Reply) : Confined W R (do
      addAof line
      return reply : Exec σ Reply) := (addAof_confined _).seq fun _ => .pure trivial

theorem logIf_confined (c : Prop) [Decidable c] (line : CmdLine) (reply : Reply) : Confined W R (do
      if c then addAof line
      return reply : Exec σ Reply) := by
  dsimp only
  split
  · exact log_confined _ _
  · exact .pure trivial

section

variable (args : List Slice)

theorem removes_confined (keys : List Bytes) (h : ∀ key ∈ keys, key ∈ W) :
    Confined W R (removes keys : Exec σ Int) := by
  induction keys with
  | nil => exact .pure trivial
  | cons key keys ih =>
      rw [List.forall_mem_cons] at h
      apply (has_confined (.inl h.1)).seq
      intro b
      split
      · exact (remove_confined h.1).seq fun _ => (ih h.2).seq fun _ => .pure trivial
      · exact ih h.2

theorem execDel_confined (h : ∀ arg ∈ args, text arg ∈ W) : Confined W R (execDel args : Exec σ Reply) := by
  apply (removes_confined _ (List.forall_mem_map.mpr h)).seq
  intro n
  split
  · exact log_confined _ _
  · exact .pure trivial

theorem execSet_confined {key : Slice} (h : text key ∈ W) (value : Slice) :
    Confined W R (execSet env [key, value]) := by
  refine (Local.seq (put_confined h _) fun _ => .pure trivial).seq fun n => ?_
  split
  · exact (persist_confined _).seq fun _ => log_confined _ _
  · exact .pure trivial

theorem insertFront_confined (h : key ∈ W) (l : StoredList Slice) (values : List Slice) :
    Confined W R (insertFront env key l values) := by
  induction values generalizing l with
  | nil => exact .pure trivial
  | cons value values ih =>
      rw [insertFront]
      split
      · exact .panics
      · exact (put_confined h _).seq fun _ => ih _

theorem addBack_confined (h : key ∈ W) (l : StoredList Slice) (values : List Slice) :
    Confined W R (addBack env key l values) := by
  induction values generalizing l with
  | nil => exact .pure trivial
  | cons value values ih => exact (put_confined h _).seq fun _ => ih _

theorem popLast_confined (h : key ∈ W) (l : StoredList Slice) :
    Confined W R (popLast key l : Exec σ (StoredList Slice × Slice)) := by
  apply (put_confined h _).seq
  intro _
  split
  · exact .panics
  · exact .pure trivial

theorem removeEmpty_confined (h : key ∈ W) (l : StoredList Slice) :
    Confined W R (removeEmpty key l : Exec σ PUnit) := by
  rw [removeEmpty]
  split
  · exact remove_confined h
  · exact .pure trivial

variable {first : Slice}

theorem execPersist_confined (h : text first ∈ W) : Confined W R (execPersist env (first :: args)) := by
  apply (getEntity_confined (.inl h)).seq
  intro r
  split
  · exact .pure trivial
  · apply (getTTL_local _).confined.seq
    intro ttl
    split
    · exact .pure trivial
    · exact (persist_confined _).seq fun _ => log_confined _ _

theorem execLPush_confined (h : text first ∈ W) : Confined W R (execLPush env (first :: args)) := by
  apply (getOrInit_confined h _ _ _).seq
  intro r
  split
  · exact .pure trivial
  · exact (insertFront_confined h _ _).seq fun _ => log_confined _ _

theorem execRPush_confined (h : text first ∈ W) : Confined W R (execRPush env (first :: args)) := by
  apply (getOrInit_confined h _ _ _).seq
  intro r
  split
  · exact .pure trivial
  · exact (addBack_confined h _ _).seq fun _ => log_confined _ _

theorem execLPop_confined (h : text first ∈ W) : Confined W R (execLPop env (first :: args)) := by
  apply (getAs_confined (.inl h) _).seq
  intro r
  split
  · exact .pure trivial
  · exact .pure trivial
  · split
    · exact .panics
    · exact (put_confined h _).seq fun _ => (removeEmpty_confined h _).seq fun _ => log_confined _ _

theorem execRPop_confined (h : text first ∈ W) : Confined W R (execRPop env (first :: args)) := by
  apply (getAs_confined (.inl h) _).seq
  intro r
  split
  · exact .pure trivial
  · exact .pure trivial
  · exact (popLast_confined h _).seq fun _ => (removeEmpty_confined h _).seq fun _ => log_confined _ _

theorem execLSet_confined (h : text first ∈ W) : Confined W R (execLSet env (first :: args)) := by
  unfold execLSet
  split
  · next heq =>
      cases heq
      split
      · exact .pure trivial
      · apply (getAs_confined (.inl h) _).seq
        intro r
        split
        · exact .pure trivial
        · exact .pure trivial
        · split
          · exact .pure trivial
          · split
            · exact .panics
            · exact put_log_confined h _ _ _
  · exact .panics

theorem execHSet_confined (h : text first ∈ W) : Confined W R (execHSet env (first :: args)) := by
  unfold execHSet
  split
  · next heq =>
      cases heq
      apply (getOrInit_confined h _ _ _).seq
      intro r
      split
      · exact .pure trivial
      · exact put_log_confined h _ _ _
  · exact .panics

theorem execHMSet_confined (h : text first ∈ W) : Confined W R (execHMSet env (first :: args)) := by
  unfold execHMSet
  split
  · next heq =>
      cases heq
      split
      · exact .pure trivial
      · refine (getOrInit_confined h _ _ _).seq fun r => ?_
        split
        · exact .pure trivial
        · exact put_log_confined h _ _ _
  · exact .pure trivial

/-- A collection is put back, or removed where it is empty. -/
theorem put_remove_confined (h : key ∈ W) (entity : Entity σ) (c c' : Prop) [Decidable c] [Decidable c']
    (line : CmdLine) (reply : Reply) : Confined W R (do
      putEntity key entity
      if c then remove key
      if c' then addAof line
      return reply : Exec σ Reply) := by
  apply (put_confined h _).seq
  intro _
  dsimp only
  split
  · exact (remove_confined h).seq fun _ => logIf_confined _ _ _
  · exact logIf_confined _ _ _

theorem execHDel_confined (h : text first ∈ W) : Confined W R (execHDel env (first :: args)) := by
  apply (getAs_confined (.inl h) _).seq
  intro r
  split
  · exact .pure trivial
  · exact .pure trivial
  · exact put_remove_confined h _ _ _ _ _

theorem execSAdd_confined (h : text first ∈ W) : Confined W R (execSAdd env (first :: args)) := by
  apply (getOrInit_confined h _ _ _).seq
  intro r
  split
  · exact .pure trivial
  · exact put_log_confined h _ _ _

theorem execSRem_confined (h : text first ∈ W) : Confined W R (execSRem env (first :: args)) := by
  apply (getAs_confined (.inl h) _).seq
  intro r
  split
  · exact .pure trivial
  · exact .pure trivial
  · exact put_remove_confined h _ _ _ _ _

variable [LinearOrder σ]

theorem addElements_confined (h : key ∈ W) (z : ZSet σ) (i : Nat) (elements : List (Bytes × σ)) :
    Confined W R (addElements env key z i elements) := by
  induction elements generalizing z i with
  | nil => exact .pure trivial
  | cons element elements ih =>
      refine Local.seq ?_ fun _ => (ih _ _).seq fun _ => .pure trivial
      apply (put_confined h _).seq
      intro _
      split
      · exact .panics
      · exact .pure trivial

theorem execZAdd_confined (h : text first ∈ W) : Confined W R (execZAdd env (first :: args)) := by
  unfold execZAdd
  split
  · next heq =>
      cases heq
      split
      · exact .pure trivial
      · split
        · exact .pure trivial
        · refine (getOrInit_confined h _ _ _).seq fun r => ?_
          split
          · exact .pure trivial
          · exact (addElements_confined h _ _ _).seq fun _ => .pure trivial
  · exact .pure trivial

end

end Traitor.Database
