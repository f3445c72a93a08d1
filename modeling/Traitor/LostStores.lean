import Traitor.LostCollections

namespace Traitor.Database

open Lib.Effects Lib.Strconv Protocol

variable {σ : Type} {env : Env σ} {ch : Choices} {w : World σ} {key : Bytes} {args : List Slice}

section

variable (w)

def Absent (key : Bytes) : Prop := (w.db.slot key).data = none

def HoldsSet (key : Bytes) : Prop := ∃ s, (w.db.slot key).data = some (.set s)

/-- `SINTERSTORE` ends at a key that is not there, and at a second one that is, the copy of the first
set being empty. -/
def InterEmpty : List Bytes → Prop
  | [] => False
  | [key] => Absent w key
  | key :: key' :: _ => Absent w key ∨ HoldsSet w key ∧ (Absent w key' ∨ HoldsSet w key')

def MeetsSet : List Bytes → Prop
  | [] => False
  | key :: keys => HoldsSet w key ∨ Absent w key ∧ MeetsSet keys

/-- `SDIFFSTORE` ends at a first key that is not there, and at another one that is. -/
def DiffEmpty : List Bytes → Prop
  | [] => True
  | key :: keys => Absent w key ∨ HoldsSet w key ∧ MeetsSet w keys

def UnionEmpty (keys : List Bytes) : Prop := ∀ key ∈ keys, Absent w key

def StoreLoses (args : List Slice) (empty : World σ → List Bytes → Prop) : Prop :=
  ∃ dest keys, args = dest :: keys ∧ empty w (keys.map text) ∧ w.db.slot (text dest) ≠ .empty

end

theorem wp_getAsSet (hfresh : NoneExpired env w) (key : Bytes) {α : Type}
    {f : Except Reply (Option (Finset Bytes)) → Exec σ α} {Q : Option α → World σ → Prop}
    (hnone : Absent w key → wp (f (.ok none)) Q w)
    (hset : ∀ s, HoldsSet w key → wp (f (.ok (some s))) Q w)
    (herror : ∀ e, ¬ Absent w key → ¬ HoldsSet w key → wp (f (.error e)) Q w) :
    wp (getAsSet env key >>= f) Q w := by
  rw [getAsSet, wp_bind, wp_getAs, hfresh.evict, DB.view, hfresh.live]
  cases hdata : (w.db.slot key).data with
  | none => exact hnone hdata
  | some e =>
      dsimp only
      cases hs : e.asSet with
      | none =>
          apply herror _ (by simp [Absent, hdata])
          rintro ⟨s, h⟩
          obtain rfl := Option.some.inj (hdata.symm.trans h)
          cases hs
      | some s => exact hset s ⟨s, by rw [hdata, asSet_eq hs]⟩

theorem HoldsSet.not_absent (h : HoldsSet w key) : ¬ Absent w key := by
  obtain ⟨s, h⟩ := h
  simp [Absent, h]

theorem wp_interLoop (hfresh : NoneExpired env w) (keys : List Bytes) :
    wp (interLoop env none keys) (fun r w' => w' = w ∧ (r = some .empty ↔ InterEmpty w keys)) w := by
  rcases keys with _ | ⟨key, _ | ⟨key', keys⟩⟩
  · exact ⟨rfl, by simp [InterEmpty]⟩
  · refine wp_getAsSet hfresh key (fun h => ?_) (fun s h => ?_) fun e h h' => ?_
    · exact ⟨rfl, iff_of_true rfl h⟩
    · exact ⟨rfl, iff_of_false (by simp) h.not_absent⟩
    · exact ⟨rfl, iff_of_false (by simp) h⟩
  · refine wp_getAsSet hfresh key (fun h => ?_) (fun s h => ?_) fun e h h' => ?_
    · exact ⟨rfl, iff_of_true rfl (.inl h)⟩
    · refine wp_getAsSet hfresh key' (fun h' => ?_) (fun s' h' => ?_) fun e hne hne' => ?_
      · exact ⟨rfl, iff_of_true rfl (.inr ⟨h, .inl h'⟩)⟩
      · simp only [makeSet, Finset.empty_inter, Finset.card_empty, if_true, wp_pure]
        exact ⟨trivial, iff_of_true trivial (.inr ⟨h, .inr h'⟩)⟩
      · refine ⟨rfl, iff_of_false (by simp) ?_⟩
        simp [InterEmpty, h.not_absent, hne, hne']
    · refine ⟨rfl, iff_of_false (by simp) ?_⟩
      simp [InterEmpty, h, h']

theorem wp_diffRest (hfresh : NoneExpired env w) (keys : List Bytes) :
    wp (diffLoop env false (some ∅) keys) (fun r w' => w' = w ∧ r ≠ some (.result none) ∧
      (r = some .empty ↔ MeetsSet w keys)) w := by
  induction keys with
  | nil => exact ⟨rfl, by simp, by simp [MeetsSet]⟩
  | cons key keys ih =>
      refine wp_getAsSet hfresh key (fun h => ?_) (fun s h => ?_) fun e h h' => ?_
      · refine wp_mono ih fun r w' hr => ⟨hr.1, hr.2.1, hr.2.2.trans ?_⟩
        have hnot : ¬ HoldsSet w key := fun h' => h'.not_absent h
        simp [MeetsSet, h, hnot]
      · simp only [Finset.empty_sdiff, Finset.card_empty, if_true, wp_pure]
        exact ⟨trivial, by simp, iff_of_true trivial (.inl h)⟩
      · refine ⟨rfl, by simp, iff_of_false (by simp) ?_⟩
        simp [MeetsSet, h, h']

theorem wp_diffLoop (hfresh : NoneExpired env w) (keys : List Bytes) :
    wp (diffLoop env true none keys) (fun r w' => w' = w ∧
      (r = some .empty ∨ r = some (.result none) ↔ DiffEmpty w keys)) w := by
  rcases keys with _ | ⟨key, keys⟩
  · exact ⟨rfl, iff_of_true (.inr rfl) trivial⟩
  · refine wp_getAsSet hfresh key (fun h => ?_) (fun s h => ?_) fun e h h' => ?_
    · exact ⟨rfl, iff_of_true (.inl rfl) (.inl h)⟩
    · refine wp_mono (wp_diffRest hfresh keys) fun r w' hr => ⟨hr.1, ?_⟩
      simp [hr.2.1, hr.2.2, DiffEmpty, h, h.not_absent]
    · refine ⟨rfl, iff_of_false (by simp) ?_⟩
      simp [DiffEmpty, h, h']

theorem wp_unionRest (hfresh : NoneExpired env w) (s : Finset Bytes) (keys : List Bytes) :
    wp (unionLoop env (some s) keys) (fun r w' => w' = w ∧ r ≠ some .empty ∧ r ≠ some (.result none)) w := by
  induction keys generalizing s with
  | nil => exact ⟨rfl, by simp, by simp⟩
  | cons key keys ih =>
      refine wp_getAsSet hfresh key (fun h => ?_) (fun s h => ?_) fun e h h' => ?_
      · exact ih s
      · exact ih _
      · exact ⟨rfl, by simp, by simp⟩

theorem wp_unionLoop (hfresh : NoneExpired env w) (keys : List Bytes) :
    wp (unionLoop env none keys) (fun r w' => w' = w ∧ r ≠ some .empty ∧
      (r = some (.result none) ↔ UnionEmpty w keys)) w := by
  induction keys with
  | nil => exact ⟨rfl, by simp, by simp [UnionEmpty]⟩
  | cons key keys ih =>
      refine wp_getAsSet hfresh key (fun h => ?_) (fun s h => ?_) fun e h h' => ?_
      · refine wp_mono ih fun r w' hr => ⟨hr.1, hr.2.1, hr.2.2.trans ?_⟩
        simp [UnionEmpty, h]
      · refine wp_mono (wp_unionRest hfresh _ keys) fun r w' hr => ⟨hr.1, hr.2.1, ?_⟩
        simp [hr.2.2, UnionEmpty, h.not_absent]
      · refine ⟨rfl, by simp, iff_of_false (by simp) ?_⟩
        simp [UnionEmpty, h]

section

variable [LinearOrder σ] [Inhabited σ]

/-- The destination of a result that is empty goes, and nothing is handed on. -/
theorem recovers_removed_iff (key : Bytes) :
    Recovers env ch w { w with db := w.db.remove key } ↔ w.db.slot key = .empty := by
  rw [recovers_silent_iff fun k => DB.slot_remove]
  constructor
  · rintro ⟨hdata, httl⟩
    generalize w.db.slot key = s at hdata httl
    obtain ⟨data, ttl⟩ := s
    cases hdata
    obtain rfl : ttl = none := by simpa [Slot.empty, eq_comm] using httl
    rfl
  · intro h
    rw [h]
    exact .refl _

variable {c : CommandName} {name : String} {dest : Slice} {keys : List Slice}

/-- A loop that reads, and what is done with its result. -/
theorem store_logged_iff {loop : Exec σ Calculated} {finish : Calculated → Exec σ Reply} {empty : Prop}
    (hname : cmdTable (toLower (bytes name)) = some c)
    (harity : validateArity (command env c).arity (cmdLine3 name (dest :: keys)) = true)
    (hc : c ∈ steady) (hfresh : NoneExpired env w)
    (hexecutor : (command env c).executor (dest :: keys) = loop >>= finish)
    (removes : Calculated → Prop)
    (hloop : wp loop (fun r w' => w' = w ∧ ((∃ a, r = some a ∧ removes a) ↔ empty)) w)
    (hremoves : ∀ a, removes a → ∃ reply, finish a = do
      remove (text dest)
      return reply)
    (hstores : ∀ a, ¬ removes a → Journals env (Verbatim name (dest :: keys)) (finish a)) :
    Logged env ch ((command env c).executor (dest :: keys)) w ↔
      ¬ (empty ∧ w.db.slot (text dest) ≠ .empty) := by
  obtain ⟨hfinal, hvalue⟩ := (wp_iff _ _ w).mp hloop
  by_cases hempty : empty
  · obtain ⟨a, ha, hrem⟩ := hvalue.mpr hempty
    obtain ⟨reply, hfinish⟩ := hremoves a hrem
    rw [hexecutor, Logged, wp_bind, wp_iff, ha, hfinal]
    simp only [hfinish, remove, wp_bind, wp_modifyDB, wp_pure, recovers_removed_iff, hempty, true_and, not_not]
  · refine iff_of_true ?_ fun h => hempty h.1
    apply Logged.of_journalsAt hname harity (steady_of_mem hc _) hfresh
    rw [hexecutor, JournalsAt, wp_bind, wp_iff, hfinal]
    cases ha : value loop w with
    | none => exact .inl (refl_of (Quiet env) w)
    | some a => exact hstores a (fun hrem => hempty (hvalue.mp ⟨a, ha, hrem⟩)) w

omit [LinearOrder σ] [Inhabited σ] in
theorem storeLoses_iff {empty : World σ → List Bytes → Prop} :
    StoreLoses w (dest :: keys) empty ↔ empty w (keys.map text) ∧ w.db.slot (text dest) ≠ .empty := by
  constructor
  · rintro ⟨dest', keys', heq, h⟩
    cases heq
    exact h
  · exact fun h => ⟨dest, keys, rfl, h⟩

omit [LinearOrder σ] [Inhabited σ] in
theorem exists_removed_iff (r : Option Calculated) :
    (∃ a, r = some a ∧ (a = .empty ∨ a = .result none)) ↔ r = some .empty ∨ r = some (.result none) := by
  simp only [and_or_left, exists_or, exists_eq_right]

omit [LinearOrder σ] [Inhabited σ] in
theorem commits_stored (name : String) (dest : Slice) (keys : List Slice) (result : Finset Bytes) :
    Commits (Verbatim name (dest :: keys)) (storeSet env name dest keys result) :=
  .put _ (.log (.pure rfl (verbatim _ _)))

theorem execSInterStore_logged_iff (hfresh : NoneExpired env w)
    (harity : validateArity (-3) (cmdLine3 "sinterstore" args) = true) :
    Logged env ch (execSInterStore env args) w ↔ ¬ StoreLoses w args InterEmpty := by
  rcases args with _ | ⟨dest, keys⟩
  · exact iff_of_true .panics (by simp [StoreLoses])
  rw [storeLoses_iff]
  refine store_logged_iff (c := .sInterStore) rfl harity (by decide) hfresh rfl (· = .empty)
    (wp_mono (wp_interLoop hfresh (keys.map text)) fun r w' h => ?_) ?_ ?_
  · simpa using h
  · rintro a rfl
    exact ⟨_, rfl⟩
  · rintro (reply | _ | s | s) ha
    · exact .pure _
    · exact absurd rfl ha
    · exact .of_moves .panics
    · exact .of_commits (commits_stored _ _ _ _)

theorem execSUnionStore_logged_iff (hfresh : NoneExpired env w)
    (harity : validateArity (-3) (cmdLine3 "sunionstore" args) = true) :
    Logged env ch (execSUnionStore env args) w ↔ ¬ StoreLoses w args UnionEmpty := by
  rcases args with _ | ⟨dest, keys⟩
  · exact iff_of_true .panics (by simp [StoreLoses])
  rw [storeLoses_iff]
  refine store_logged_iff (c := .sUnionStore) rfl harity (by decide) hfresh rfl
    (fun a => a = .empty ∨ a = .result none)
    (wp_mono (wp_unionLoop hfresh (keys.map text)) fun r w' h => ⟨h.1, ?_⟩) ?_ ?_
  · rw [exists_removed_iff, ← h.2.2]
    exact or_iff_right h.2.1
  · rintro a (rfl | rfl) <;> exact ⟨_, rfl⟩
  · rintro (reply | _ | ⟨_ | s⟩) ha
    · exact .pure _
    · exact absurd (.inl rfl) ha
    · exact absurd (.inr rfl) ha
    · exact .of_commits (.bind (silent_remove _) fun _ => commits_stored _ _ _ _)

theorem execSDiffStore_logged_iff (hfresh : NoneExpired env w)
    (harity : validateArity (-3) (cmdLine3 "sdiffstore" args) = true) :
    Logged env ch (execSDiffStore env args) w ↔ ¬ StoreLoses w args DiffEmpty := by
  rcases args with _ | ⟨dest, keys⟩
  · exact iff_of_true .panics (by simp [StoreLoses])
  rw [storeLoses_iff]
  refine store_logged_iff (c := .sDiffStore) rfl harity (by decide) hfresh rfl
    (fun a => a = .empty ∨ a = .result none)
    (wp_mono (wp_diffLoop hfresh (keys.map text)) fun r w' h => ⟨h.1, ?_⟩) ?_ ?_
  · rw [exists_removed_iff, h.2]
  · rintro a (rfl | rfl) <;> exact ⟨_, rfl⟩
  · rintro (reply | _ | ⟨_ | s⟩) ha
    · exact .pure _
    · exact absurd (.inl rfl) ha
    · exact absurd (.inr rfl) ha
    · exact .of_commits (commits_stored _ _ _ _)

end

end Traitor.Database
