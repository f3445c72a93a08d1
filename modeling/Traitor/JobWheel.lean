import Traitor.TimeWheel

namespace Traitor.JobWheel

open Lib.Deadlines TimeWheel

def interval : Nat := 1

def slotNums : Nat := 3600

instance : NeZero slotNums := ⟨by decide⟩

def makeTimeWheel : Wheel slotNums := make (second * interval) slotNums

/-- The task received from the channel goes into the slot by value. -/
def handleAddTask (w : Wheel slotNums) (t : Task) : Option (Wheel slotNums) :=
  addTask .task w t

def handleRemove (w : Wheel slotNums) (key : Bytes) : Wheel slotNums := removeTask w key

/-- The location of the key of a task that is run is deleted, the empty key included. -/
def forgets (_ : Bytes) : Bool := true

def run (w : Wheel slotNums) (es : List (Event Bytes)) :
    Option (Wheel slotNums × List (List Nat)) :=
  TimeWheel.run .task forgets w es

/-- No step panics and every task is run exactly once and on time. -/
def Punctual (es : List (Event Bytes)) : Prop :=
  ∃ w runs, run makeTimeWheel es = some (w, runs) ∧ RunsOnTime [] es runs

/-- Within `m` ticks a task of the key is taken out of the wheel again: its key is
removed while the map names the task, or a non-empty key is added once more. -/
def leaves (key : Bytes) : Bool → Nat → List (Event Bytes) → Bool
  | _, _, [] => true
  | _, 0, .tick :: _ => false
  | named, m + 1, .tick :: es => leaves key named m es
  | named, m, .remove key' :: es =>
      if key' = key ∧ named then true else leaves key named m es
  | named, m, .add key' _ :: es =>
      if key' = key then (if key = [] then leaves key false m es else true)
      else leaves key named m es

/-- Every added task is taken out before the next tick that scans its slot. -/
def clears : List (Event Bytes) → Bool
  | [] => true
  | .add key d :: es => leaves key true (d % slotNums) es && clears es
  | .remove _ :: es => clears es
  | .tick :: es => clears es

theorem leaves_remove (key : Bytes) (named : Bool) (m : Nat) (key' : Bytes)
    (es : List (Event Bytes)) : leaves key named m (.remove key' :: es) =
      if key' = key ∧ named then true else leaves key named m es := by
  cases m <;> rfl

theorem leaves_add (key : Bytes) (named : Bool) (m : Nat) (key' : Bytes) (d : Nat)
    (es : List (Event Bytes)) : leaves key named m (.add key' d :: es) =
      if key' = key then (if key = [] then leaves key false m es else true)
      else leaves key named m es := by
  cases m <;> rfl

theorem not_survives_of_leaves {key : Bytes} {named : Bool} {m d : Nat} (hmd : m ≤ d)
    {es : List (Event Bytes)} (h : leaves key named m es = true) :
    survives [] key d es = false := by
  induction es generalizing named m d with
  | nil => simp [survives]
  | cons e es ih =>
      cases e with
      | add key' d' =>
          have hs : survives [] key d (.add key' d' :: es) =
              if key' = key ∧ key ≠ [] then false else survives [] key d es := by
            cases d <;> rfl
          rw [leaves_add] at h
          rw [hs]
          by_cases hk : key' = key
          · by_cases he : key = []
            · rw [if_pos hk, if_pos he] at h
              rw [if_neg (fun hc => hc.2 he)]
              exact ih hmd h
            · rw [if_pos ⟨hk, he⟩]
          · rw [if_neg hk] at h
            rw [if_neg (fun hc => hk hc.1)]
            exact ih hmd h
      | remove key' =>
          have hs : survives [] key d (.remove key' :: es) =
              if key' = key then false else survives [] key d es := by
            cases d <;> rfl
          rw [leaves_remove] at h
          rw [hs]
          by_cases hk : key' = key
          · rw [if_pos hk]
          · rw [if_neg (fun hc => hk hc.1)] at h
            rw [if_neg hk]
            exact ih hmd h
      | tick =>
          cases m with
          | zero => simp [leaves] at h
          | succ m =>
              obtain ⟨d', rfl⟩ : ∃ d', d = d' + 1 := ⟨d - 1, by omega⟩
              exact ih (Nat.le_of_succ_le_succ hmd) h

structure Parked (w : Wheel slotNums) : Prop where
  interval : w.interval = second
  fresh : ∀ i, ∀ e ∈ w.slots i, e.id < w.nextId
  task : ∀ i, ∀ e ∈ w.slots i, e.value = .task
  same : ∀ i, ∀ e ∈ w.slots i, ∀ j, ∀ f ∈ w.slots j, e.id = f.id → i = j ∧ e = f
  located : ∀ key loc, w.locationMap key = some loc →
    ∃ e ∈ w.slots loc.slotIndex, e.id = loc.elem ∧ e.key = key
  named : ∀ i, ∀ e ∈ w.slots i, e.key ≠ [] → w.locationMap e.key = some ⟨i, e.id⟩

def isNamed (w : Wheel slotNums) (i : Fin slotNums) (e : Element) : Bool :=
  w.locationMap e.key = some ⟨i, e.id⟩

def distance (w : Wheel slotNums) (i : Fin slotNums) : Nat :=
  (i + slotNums - w.currentPos) % slotNums

def WillLeave (w : Wheel slotNums) (es : List (Event Bytes)) : Prop :=
  ∀ i, ∀ e ∈ w.slots i, leaves e.key (isNamed w i e) (distance w i) es = true

theorem makeTimeWheel_parked : Parked makeTimeWheel where
  interval := by decide
  fresh i e he := by simp [makeTimeWheel, make] at he
  task i e he := by simp [makeTimeWheel, make] at he
  same i e he := by simp [makeTimeWheel, make] at he
  located key loc h := by simp [makeTimeWheel, make] at h
  named i e he := by simp [makeTimeWheel, make] at he

theorem distance_slot (w : Wheel slotNums) (d : Nat) :
    distance w (slot slotNums (w.currentPos + d)) = d % slotNums := by
  have hc := w.currentPos.isLt
  simp only [distance, slot, slotNums] at hc ⊢
  omega

theorem distance_eq_zero (w : Wheel slotNums) (i : Fin slotNums) :
    distance w i = 0 ↔ i = w.currentPos := by
  have hc := w.currentPos.isLt
  have hi := i.isLt
  rw [Fin.ext_iff]
  simp only [distance, slotNums] at hc hi ⊢
  omega

theorem distance_tickHandler (w : Wheel slotNums) (i : Fin slotNums) (hi : i ≠ w.currentPos) :
    distance w i = distance (tickHandler w) i + 1 := by
  have hc := w.currentPos.isLt
  have hl := i.isLt
  have hne : i.val ≠ w.currentPos.val := fun h => hi (Fin.ext h)
  have ht : (tickHandler w).currentPos.val = (w.currentPos.val + 1) % slotNums := by
    rw [tickHandler_currentPos]; rfl
  rw [distance, distance, ht]
  simp only [slotNums] at hc hl ⊢
  omega

/-- Which elements a removal leaves, and what it forgets. -/
theorem mem_handleRemove {w : Wheel slotNums} (h : Parked w) (key : Bytes) (i : Fin slotNums)
    (e : Element) : e ∈ (handleRemove w key).slots i ↔
      e ∈ w.slots i ∧ ¬ (e.key = key ∧ isNamed w i e) := by
  cases hl : w.locationMap key with
  | none =>
      rw [handleRemove, removeTask_none hl]
      refine ⟨fun he => ⟨he, fun ⟨hk, hn⟩ => ?_⟩, fun he => he.1⟩
      simp [isNamed, hk, hl] at hn
  | some loc =>
      obtain ⟨f, hf, hid, hkey⟩ := h.located key loc hl
      rw [handleRemove, removeTask_slots hl]
      by_cases hi : i = loc.slotIndex
      · subst hi
        rw [Function.update_self, List.mem_filter]
        apply and_congr_right
        intro he
        rw [decide_eq_true_iff, not_iff_not]
        constructor
        · intro hc
          obtain ⟨_, rfl⟩ := h.same _ e he _ f hf (hc.trans hid.symm)
          exact ⟨hkey, by simp [isNamed, hkey, hl, hid]⟩
        · rintro ⟨hk, hn⟩
          have hn' := of_decide_eq_true hn
          rw [hk, hl] at hn'
          exact (congrArg Location.elem (Option.some.inj hn')).symm
      · rw [Function.update_of_ne hi]
        refine ⟨fun he => ⟨he, fun ⟨hk, hn⟩ => hi ?_⟩, fun he => he.1⟩
        have hn' := of_decide_eq_true hn
        rw [hk, hl] at hn'
        exact (congrArg Location.slotIndex (Option.some.inj hn')).symm

theorem handleRemove_locationMap {w : Wheel slotNums} (key key' : Bytes) :
    (handleRemove w key).locationMap key' = if key' = key then none else w.locationMap key' := by
  cases hl : w.locationMap key with
  | none =>
      rw [handleRemove, removeTask_none hl]
      by_cases hk : key' = key
      · simp [hk, hl]
      · simp [hk]
  | some loc =>
      rw [handleRemove, removeTask_locationMap hl, Function.update_apply]

theorem handleRemove_parked {w : Wheel slotNums} (h : Parked w) (key : Bytes) :
    Parked (handleRemove w key) where
  interval := by simp [handleRemove, h.interval]
  fresh i e he := by
    have := h.fresh i e ((mem_handleRemove h key i e).mp he).1
    simpa [handleRemove] using this
  task i e he := h.task i e ((mem_handleRemove h key i e).mp he).1
  same i e he j f hf := h.same i e ((mem_handleRemove h key i e).mp he).1 j f
    ((mem_handleRemove h key j f).mp hf).1
  located key' loc hl := by
    rw [handleRemove_locationMap] at hl
    split at hl
    · simp at hl
    · next hk =>
        obtain ⟨e, he, hid, hek⟩ := h.located key' loc hl
        exact ⟨e, (mem_handleRemove h key _ e).mpr ⟨he, fun hc => hk (hek.symm.trans hc.1)⟩, hid, hek⟩
  named i e he hne := by
    obtain ⟨he, hn⟩ := (mem_handleRemove h key i e).mp he
    have hloc := h.named i e he hne
    rw [handleRemove_locationMap, if_neg (fun hk => hn ⟨hk, by simp [isNamed, hloc]⟩)]
    exact hloc

theorem willLeave_remove {w : Wheel slotNums} (h : Parked w) (key : Bytes)
    (es : List (Event Bytes)) :
    WillLeave (handleRemove w key) es ↔ WillLeave w (.remove key :: es) := by
  have hd : ∀ i, distance (handleRemove w key) i = distance w i := by
    intro i; simp [distance, handleRemove]
  have hstay : ∀ i, ∀ e ∈ w.slots i, ¬ (e.key = key ∧ isNamed w i e) →
      isNamed (handleRemove w key) i e = isNamed w i e := by
    intro i e he hn
    rw [isNamed, handleRemove_locationMap]
    by_cases hk : e.key = key
    · rw [if_pos hk, Bool.eq_false_of_not_eq_true fun hc => hn ⟨hk, hc⟩]
      simp
    · rw [if_neg hk, isNamed]
  constructor
  · intro hw i e he
    rw [leaves_remove]
    by_cases hn : key = e.key ∧ isNamed w i e
    · rw [if_pos hn]
    · have hn' : ¬ (e.key = key ∧ isNamed w i e) := fun hc => hn ⟨hc.1.symm, hc.2⟩
      rw [if_neg hn]
      have := hw i e ((mem_handleRemove h key i e).mpr ⟨he, hn'⟩)
      rwa [hd, hstay i e he hn'] at this
  · intro hw i e he
    obtain ⟨he, hn'⟩ := (mem_handleRemove h key i e).mp he
    have := hw i e he
    rw [leaves_remove, if_neg (fun hc => hn' ⟨hc.1.symm, hc.2⟩)] at this
    rwa [hd, hstay i e he hn']

def record (w : Wheel slotNums) (key : Bytes) (pos : Fin slotNums) (circle : Nat) :
    Wheel slotNums :=
  let pushed := pushBack w pos ⟨w.nextId, .task, circle, key⟩
  { pushed with
    locationMap := Function.update pushed.locationMap key (some ⟨pos, w.nextId⟩) }

theorem mem_record (w : Wheel slotNums) (key : Bytes) (pos : Fin slotNums) (circle : Nat)
    (i : Fin slotNums) (e : Element) : e ∈ (record w key pos circle).slots i ↔
      e ∈ w.slots i ∨ i = pos ∧ e = ⟨w.nextId, .task, circle, key⟩ := by
  by_cases hi : i = pos
  · subst hi; simp [record, pushBack]
  · simp [record, pushBack, hi]

theorem record_parked {w : Wheel slotNums} (h : Parked w) (key : Bytes)
    (hfree : key ≠ [] → ∀ i, ∀ e ∈ w.slots i, e.key ≠ key) (pos : Fin slotNums) (circle : Nat) :
    Parked (record w key pos circle) where
  interval := h.interval
  fresh i e he := by
    rcases (mem_record w key pos circle i e).mp he with he | ⟨_, rfl⟩
    · exact Nat.lt_succ_of_lt (h.fresh i e he)
    · exact Nat.lt_succ_self _
  task i e he := by
    rcases (mem_record w key pos circle i e).mp he with he | ⟨_, rfl⟩
    · exact h.task i e he
    · rfl
  same i e he j f hf hid := by
    rcases (mem_record w key pos circle i e).mp he with he | ⟨hi, rfl⟩ <;>
      rcases (mem_record w key pos circle j f).mp hf with hf | ⟨hj, rfl⟩
    · exact h.same i e he j f hf hid
    · exact absurd hid (Nat.ne_of_lt (h.fresh i e he))
    · exact absurd hid.symm (Nat.ne_of_lt (h.fresh j f hf))
    · exact ⟨hi.trans hj.symm, rfl⟩
  located key' loc hl := by
    by_cases hk : key' = key
    · subst hk
      simp only [record, Function.update_self, Option.some.injEq] at hl
      subst hl
      exact ⟨_, (mem_record w key' pos circle pos _).mpr (Or.inr ⟨rfl, rfl⟩), rfl, rfl⟩
    · simp only [record, Function.update_of_ne hk] at hl
      obtain ⟨e, he, hid, hek⟩ := h.located key' loc hl
      exact ⟨e, (mem_record w key pos circle _ e).mpr (Or.inl he), hid, hek⟩
  named i e he hne := by
    rcases (mem_record w key pos circle i e).mp he with he | ⟨rfl, rfl⟩
    · have hk : e.key ≠ key := fun hk => hfree (hk ▸ hne) i e he hk
      simp only [record, Function.update_of_ne hk]
      exact h.named i e he hne
    · simp [record]

theorem willLeave_record {w : Wheel slotNums} (h : Parked w) (key : Bytes)
    (hfree : key ≠ [] → ∀ i, ∀ e ∈ w.slots i, e.key ≠ key) (d : Nat) (circle : Nat)
    (es : List (Event Bytes)) :
    WillLeave (record w key (slot slotNums (w.currentPos + d)) circle) es ↔
      WillLeave w (.add key d :: es) ∧ leaves key true (d % slotNums) es = true := by
  have hold : ∀ i, ∀ e ∈ w.slots i,
      leaves e.key (isNamed w i e) (distance w i) (.add key d :: es) =
        leaves e.key (isNamed (record w key (slot slotNums (w.currentPos + d)) circle) i e)
          (distance w i) es := by
    intro i e he
    rw [leaves_add]
    by_cases hk : key = e.key
    · have hz : e.key = [] := by
        by_contra hne
        exact hfree (hk ▸ hne) i e he hk.symm
      have hn : isNamed (record w key (slot slotNums (w.currentPos + d)) circle) i e = false := by
        simp only [isNamed, record, hk, Function.update_self, decide_eq_false_iff_not,
          Option.some.injEq, Location.mk.injEq]
        exact fun hc => (Nat.ne_of_lt (h.fresh i e he)) hc.2.symm
      rw [if_pos hk, if_pos hz, hn]
    · have hn : isNamed (record w key (slot slotNums (w.currentPos + d)) circle) i e =
          isNamed w i e := by
        simp [isNamed, record, Function.update_of_ne (Ne.symm hk), pushBack]
      rw [if_neg hk, hn]
  have hnew : leaves key (isNamed (record w key (slot slotNums (w.currentPos + d)) circle)
      (slot slotNums (w.currentPos + d)) ⟨w.nextId, .task, circle, key⟩)
      (distance w (slot slotNums (w.currentPos + d))) es = leaves key true (d % slotNums) es := by
    rw [distance_slot]
    simp [isNamed, record]
  constructor
  · intro hw
    refine ⟨fun i e he => ?_, ?_⟩
    · rw [hold i e he]
      exact hw i e ((mem_record w key _ circle i e).mpr (Or.inl he))
    · rw [← hnew]
      exact hw _ _ ((mem_record w key _ circle _ _).mpr (Or.inr ⟨rfl, rfl⟩))
  · rintro ⟨hw, hl⟩ i e he
    rcases (mem_record w key _ circle i e).mp he with he | ⟨rfl, rfl⟩
    · exact (hold i e he).symm.trans (hw i e he)
    · exact hnew.trans hl

theorem add_step {w : Wheel slotNums} (h : Parked w) (key : Bytes) (d : Nat) :
    ∃ w', handleAddTask w ⟨d * second, key⟩ = some w' ∧ Parked w' ∧ ∀ es,
      (WillLeave w' es ↔ WillLeave w (.add key d :: es) ∧
        leaves key true (d % slotNums) es = true) := by
  have hids : ∀ key loc, w.locationMap key = some loc → loc.elem < w.nextId := by
    intro k loc hl
    obtain ⟨e, he, hid, _⟩ := h.located k loc hl
    exact hid ▸ h.fresh _ e he
  rw [handleAddTask, addTask_second .task h.interval hids]
  by_cases hk : key = []
  · have hfree : key ≠ [] → ∀ i, ∀ e ∈ w.slots i, e.key ≠ key := fun hne => absurd hk hne
    rw [if_pos hk]
    exact ⟨_, rfl, record_parked h key hfree _ _, willLeave_record h key hfree d _⟩
  · have hp := handleRemove_parked h key
    have hfree : key ≠ [] → ∀ i, ∀ e ∈ (handleRemove w key).slots i, e.key ≠ key := by
      intro _ i e he hek
      obtain ⟨he, hn⟩ := (mem_handleRemove h key i e).mp he
      exact hn ⟨hek, by simp [isNamed, h.named i e he (hek ▸ hk)]⟩
    have hadd : ∀ es, WillLeave (handleRemove w key) (.add key d :: es) ↔
        WillLeave w (.add key d :: es) := by
      intro es
      rw [willLeave_remove h]
      refine forall_congr' fun i => forall_congr' fun e => forall_congr' fun he => ?_
      rw [leaves_remove, leaves_add]
      by_cases hek : key = e.key
      · have hn : isNamed w i e = true := by simp [isNamed, h.named i e he (hek ▸ hk)]
        rw [if_pos ⟨hek, hn⟩, if_pos hek, if_neg (hek ▸ hk)]
      · rw [if_neg (fun hc => hek hc.1), if_neg hek]
    have hpos : (handleRemove w key).currentPos = w.currentPos := by simp [handleRemove]
    have hnext : (handleRemove w key).nextId = w.nextId := by simp [handleRemove]
    rw [if_neg hk]
    refine ⟨_, rfl, ?_, fun es => ?_⟩
    · have := record_parked hp key hfree (slot slotNums (w.currentPos + d)) (d / slotNums)
      rwa [record, hnext] at this
    · have := willLeave_record hp key hfree d (d / slotNums) es
      rw [hpos, hadd, record, hnext] at this
      exact this

theorem tick_occupied {w : Wheel slotNums} (h : Parked w) {e : Element}
    (he : e ∈ w.slots w.currentPos) :
    tick forgets w = none ∧ ∀ es, ¬ WillLeave w (.tick :: es) := by
  refine ⟨?_, fun es hw => ?_⟩
  · have hs : scan ((tickHandler w).slots w.currentPos) = none :=
      scan_task he (h.task _ e he)
    rw [tick, scanAndRunTask, hs, Option.map_none]
  · have := hw _ e he
    rw [(distance_eq_zero w w.currentPos).mpr rfl] at this
    simp [leaves] at this

theorem tick_free {w : Wheel slotNums} (h : Parked w) (hw : w.slots w.currentPos = []) :
    tick forgets w = some (tickHandler w, []) ∧ Parked (tickHandler w) ∧
      ∀ es, (WillLeave (tickHandler w) es ↔ WillLeave w (.tick :: es)) := by
  refine ⟨?_, ⟨h.interval, h.fresh, h.task, h.same, h.located, h.named⟩, fun es => ?_⟩
  · have hs : scan ((tickHandler w).slots w.currentPos) = some ([], []) := by
      rw [show (tickHandler w).slots w.currentPos = w.slots w.currentPos from rfl, hw, scan]
    have hslots : Function.update w.slots w.currentPos [] = w.slots := by
      rw [← hw, Function.update_eq_self]
    rw [tick, scanAndRunTask, hs, Option.map_some]
    simp [tickHandler, hslots]
  · refine forall_congr' fun i => forall_congr' fun e => forall_congr' fun he => ?_
    have hi : i ≠ w.currentPos := by
      rintro rfl
      rw [show (tickHandler w).slots w.currentPos = w.slots w.currentPos from rfl, hw] at he
      simp at he
    rw [distance_tickHandler w i hi, leaves]
    rfl

theorem run_clears {w : Wheel slotNums} (h : Parked w) (es : List (Event Bytes)) :
    (WillLeave w es ∧ clears es = true →
      ∃ w', run w es = some (w', List.replicate (ticks es) [])) ∧
    (¬ (WillLeave w es ∧ clears es = true) → run w es = none) := by
  induction es generalizing w with
  | nil =>
      refine ⟨fun _ => ⟨w, rfl⟩, fun hn => absurd ⟨fun i e _ => ?_, rfl⟩ hn⟩
      simp [leaves]
  | cons e es ih =>
      cases e with
      | add key d =>
          obtain ⟨w', ha, hp, hiff⟩ := add_step h key d
          have hrun : run w (.add key d :: es) = run w' es := by
            rw [run, TimeWheel.run, show addTask _ _ _ = _ from ha]
            rfl
          have hcond : WillLeave w (.add key d :: es) ∧ clears (.add key d :: es) = true ↔
              WillLeave w' es ∧ clears es = true := by
            rw [hiff, clears, Bool.and_eq_true, and_assoc]
          rw [hrun, hcond]
          exact ih hp
      | remove key =>
          rw [← willLeave_remove h]
          exact ih (handleRemove_parked h key)
      | tick =>
          by_cases hw : w.slots w.currentPos = []
          · obtain ⟨ht, hp, hiff⟩ := tick_free h hw
            have hrun : run w (.tick :: es) = (run (tickHandler w) es).map
                (fun r => (r.1, [] :: r.2)) := by
              rw [run, TimeWheel.run, ht]
              rfl
            rw [hrun, ← hiff, clears]
            obtain ⟨hs, hf⟩ := ih hp
            refine ⟨fun hc => ?_, fun hc => by rw [hf hc, Option.map_none]⟩
            obtain ⟨w', hr⟩ := hs hc
            exact ⟨w', by rw [hr]; rfl⟩
          · obtain ⟨e, he⟩ := List.exists_mem_of_ne_nil _ hw
            obtain ⟨ht, hn⟩ := tick_occupied h he
            refine ⟨fun hc => absurd hc.1 (hn es), fun _ => ?_⟩
            rw [run, TimeWheel.run, ht, Option.bind_none]

theorem leaves_of_clears {before after : List (Event Bytes)} {key : Bytes} {d : Nat}
    (h : clears (before ++ .add key d :: after) = true) :
    leaves key true (d % slotNums) after = true := by
  induction before with
  | nil =>
      rw [List.nil_append, clears, Bool.and_eq_true] at h
      exact h.1
  | cons e es ih =>
      cases e with
      | add key' d' =>
          rw [List.cons_append, clears, Bool.and_eq_true] at h
          exact ih h.2
      | remove key' => exact ih h
      | tick => exact ih h

theorem not_punctual {es : List (Event Bytes)} (h : clears es = false) : ¬ Punctual es := by
  rintro ⟨w, runs, hr, _⟩
  rw [(run_clears makeTimeWheel_parked es).2 (fun hc => by simp [h] at hc)] at hr
  simp at hr

theorem punctual_of_clears {es : List (Event Bytes)} (h : clears es = true) : Punctual es := by
  have hinit : WillLeave makeTimeWheel es := fun i e he => by simp [makeTimeWheel, make] at he
  obtain ⟨w, hr⟩ := (run_clears makeTimeWheel_parked es).1 ⟨hinit, h⟩
  refine ⟨w, _, hr, ?_⟩
  intro before key d after he t
  subst he
  have hn := not_survives_of_leaves (Nat.mod_le d slotNums) (leaves_of_clears h)
  have hnil : (List.replicate (ticks (before ++ .add key d :: after)) ([] : List Nat)).getD t [] = [] := by
    by_cases ht : t < ticks (before ++ .add key d :: after) <;>
      simp [List.getD_eq_getElem?_getD, ht]
  rw [hnil, hn]
  simp

/-- The wheel of the job scheduler does what its tasks ask for exactly when no
tick ever scans a slot with a task in it. -/
theorem punctual_iff_clears (es : List (Event Bytes)) : Punctual es ↔ clears es = true := by
  refine ⟨fun hp => ?_, punctual_of_clears⟩
  by_contra hc
  exact not_punctual (Bool.eq_false_of_not_eq_true hc) hp

/-- The first task that comes due makes the scan panic. -/
theorem not_punctual_due : ¬ Punctual [.add (bytes "job") 0, .tick] :=
  not_punctual (by decide)

end Traitor.JobWheel
