import Mathlib.Data.Fin.Basic
import Mathlib.Data.Nat.ModEq
import Mathlib.Logic.Function.Basic
import Traitor.Basic
import Traitor.Lib.Deadlines

namespace Traitor.TimeWheel

open Lib.Deadlines

/-- The dynamic type of the `Value` of a list element: a task or a pointer to one. -/
inductive Dynamic
  | task
  | pointer
deriving DecidableEq

/-- An element of a slot list with the fields of its task. The identity of the
element, which in the source is its address, also stands for the job closure. -/
structure Element where
  id : Nat
  value : Dynamic
  circle : Nat
  key : Bytes
deriving DecidableEq

structure Location (slotNum : Nat) where
  slotIndex : Fin slotNum
  elem : Nat
deriving DecidableEq

structure Task where
  delay : Nat
  key : Bytes

/-- The wheel that both packages implement. `nextId` is the next fresh address. -/
structure Wheel (slotNum : Nat) where
  interval : Nat
  currentPos : Fin slotNum
  slots : Fin slotNum → List Element
  locationMap : Bytes → Option (Location slotNum)
  nextId : Nat

/-- The loop over one slot: what stays and what is run. The type assertion on a
task that is not behind a pointer panics. -/
def scan : List Element → Option (List Element × List Element)
  | [] => some ([], [])
  | e :: es =>
      match e.value with
      | .task => none
      | .pointer => (scan es).map fun (kept, run) =>
          if 0 < e.circle then ({ e with circle := e.circle - 1 } :: kept, run)
          else (kept, e :: run)

theorem scan_pointers (l : List Element) (h : ∀ e ∈ l, e.value = .pointer) :
    scan l = some ((l.filter (fun e => 0 < e.circle)).map (fun e => { e with circle := e.circle - 1 }),
      l.filter (fun e => e.circle = 0)) := by
  induction l with
  | nil => rfl
  | cons e es ih =>
      have he := h e List.mem_cons_self
      rw [scan, he, ih (fun f hf => h f (List.mem_cons_of_mem _ hf))]
      by_cases hc : 0 < e.circle
      · simp [hc, Nat.ne_of_gt hc, he]
      · simp [Nat.eq_zero_of_not_pos hc]

theorem scan_task {l : List Element} {e : Element} (he : e ∈ l) (h : e.value = .task) :
    scan l = none := by
  induction l with
  | nil => simp at he
  | cons f es ih =>
      rcases List.mem_cons.mp he with rfl | he
      · simp [scan, h]
      · rw [scan, ih he]
        cases f.value <;> rfl

variable {n : Nat}

def removeTask (w : Wheel n) (key : Bytes) : Wheel n :=
  match w.locationMap key with
  | none => w
  | some loc =>
      { w with
        slots := Function.update w.slots loc.slotIndex
          ((w.slots loc.slotIndex).filter (fun e => ¬ e.id = loc.elem))
        locationMap := Function.update w.locationMap key none }

def pushBack (w : Wheel n) (pos : Fin n) (e : Element) : Wheel n :=
  { w with
    slots := Function.update w.slots pos (w.slots pos ++ [e])
    nextId := w.nextId + 1 }

theorem removeTask_none {w : Wheel n} {key : Bytes} (h : w.locationMap key = none) :
    removeTask w key = w := by
  simp [removeTask, h]

theorem removeTask_slots {w : Wheel n} {key : Bytes} {loc : Location n}
    (h : w.locationMap key = some loc) :
    (removeTask w key).slots = Function.update w.slots loc.slotIndex
      ((w.slots loc.slotIndex).filter (fun e => ¬ e.id = loc.elem)) := by
  simp [removeTask, h]

theorem removeTask_locationMap {w : Wheel n} {key : Bytes} {loc : Location n}
    (h : w.locationMap key = some loc) :
    (removeTask w key).locationMap = Function.update w.locationMap key none := by
  simp [removeTask, h]

@[simp] theorem removeTask_currentPos (w : Wheel n) (key : Bytes) :
    (removeTask w key).currentPos = w.currentPos := by
  cases h : w.locationMap key <;> simp [removeTask, h]

@[simp] theorem removeTask_interval (w : Wheel n) (key : Bytes) :
    (removeTask w key).interval = w.interval := by
  cases h : w.locationMap key <;> simp [removeTask, h]

@[simp] theorem removeTask_nextId (w : Wheel n) (key : Bytes) :
    (removeTask w key).nextId = w.nextId := by
  cases h : w.locationMap key <;> simp [removeTask, h]

/-- Removing an element of an address in use does not touch the element just added. -/
theorem removeTask_pushBack (w : Wheel n) (key : Bytes) (pos : Fin n) (e : Element)
    (he : e.id = w.nextId) (hw : ∀ loc, w.locationMap key = some loc → loc.elem < w.nextId) :
    removeTask (pushBack w pos e) key = pushBack (removeTask w key) pos e := by
  cases h : w.locationMap key with
  | none => simp [removeTask, pushBack, h]
  | some loc =>
      have hne : ¬ e.id = loc.elem := by have := hw loc h; omega
      simp only [removeTask, pushBack, h]
      congr 1
      funext i
      by_cases hi : i = pos <;> by_cases hl : i = loc.slotIndex
      · subst hi; subst hl; simp [List.filter_append, hne]
      · subst hi; simp [hl, Ne.symm hl]
      · subst hl; simp [hi, Ne.symm hi]
      · simp [hi, hl, Function.update_apply]

variable [NeZero n]

def slot (n : Nat) [NeZero n] (pos : Nat) : Fin n := ⟨pos % n, Nat.mod_lt _ (Nat.pos_of_neZero n)⟩

def make (interval n : Nat) [NeZero n] : Wheel n :=
  ⟨interval, 0, fun _ => [], fun _ => none, 0⟩

/-- The whole part of the seconds of a duration, which are a sum of two doubles: of the seconds
and of a fraction that has 53 digits. Where the fraction lacks less of the next second than half
of the last digit of the seconds, the sum is the next second. -/
def seconds (d : Nat) : Nat :=
  let lack := (2 ^ 54 * (second - d % second) + second) / (2 * second)
  if d % second ≠ 0 ∧ lack ≤ 2 ^ (d / second).log2 then d / second + 1 else d / second

def instant (start : Int) (k : Nat) : Int := start + (k + 1) * second

/-- None is the division by a zero number of interval seconds. -/
def getPositionAndCircle (w : Wheel n) (d : Nat) : Option (Fin n × Nat) :=
  let delaySeconds := seconds d
  let intervalSeconds := seconds w.interval
  if intervalSeconds = 0 then none
  else some (slot n (w.currentPos + delaySeconds / intervalSeconds),
    delaySeconds / intervalSeconds / n)

/-- The new element is in its slot before an older one of the same key leaves. -/
def addTask (value : Dynamic) (w : Wheel n) (t : Task) : Option (Wheel n) :=
  (getPositionAndCircle w t.delay).map fun (pos, circle) =>
    let pushed := pushBack w pos ⟨w.nextId, value, circle, t.key⟩
    let cleaned := if t.key ≠ [] ∧ (pushed.locationMap t.key).isSome
      then removeTask pushed t.key else pushed
    { cleaned with
      locationMap := Function.update cleaned.locationMap t.key (some ⟨pos, w.nextId⟩) }

def tickHandler (w : Wheel n) : Wheel n :=
  { w with
    currentPos := if w.currentPos.val = n - 1 then slot n 0 else slot n (w.currentPos + 1) }

/-- `forgets` are the keys whose location is deleted when their task is run. -/
def scanAndRunTask (forgets : Bytes → Bool) (w : Wheel n) (l : Fin n) :
    Option (Wheel n × List Element) :=
  (scan (w.slots l)).map fun (kept, run) =>
    ({ w with
      slots := Function.update w.slots l kept
      locationMap := fun key =>
        if forgets key ∧ key ∈ run.map Element.key then none else w.locationMap key }, run)

def tick (forgets : Bytes → Bool) (w : Wheel n) : Option (Wheel n × List Element) :=
  scanAndRunTask forgets (tickHandler w) w.currentPos

/-- The handled events, with the tasks each tick runs. None is a panic. -/
def run (value : Dynamic) (forgets : Bytes → Bool) (w : Wheel n) :
    List (Event Bytes) → Option (Wheel n × List (List Nat))
  | [] => some (w, [])
  | .add key delay :: es =>
      (addTask value w ⟨delay * second, key⟩).bind fun w => run value forgets w es
  | .remove key :: es => run value forgets (removeTask w key) es
  | .tick :: es =>
      (tick forgets w).bind fun (w, ran) =>
        (run value forgets w es).map fun (w, runs) => (w, ran.map Element.id :: runs)

theorem tickHandler_currentPos (w : Wheel n) :
    (tickHandler w).currentPos = slot n (w.currentPos + 1) := by
  rw [tickHandler]
  by_cases h : w.currentPos.val = n - 1
  · simp [h, slot, Nat.sub_add_cancel (Nat.pos_of_neZero n)]
  · simp [h]

theorem slot_mod_add (pos r : Nat) : slot n (pos % n + r) = slot n (pos + r) := by
  simp [slot]

theorem slot_add_eq (c : Fin n) (r : Nat) : slot n (c + r) = c ↔ r % n = 0 := by
  rw [Fin.ext_iff, slot]
  have h : (c + r) % n = (c + 0) % n ↔ r % n = 0 % n :=
    ⟨fun h => Nat.ModEq.add_left_cancel' c h, fun h => Nat.ModEq.add_left c h⟩
  simpa [Nat.mod_eq_of_lt c.isLt] using h

theorem seconds_mul (d : Nat) : seconds (d * second) = d := by
  rw [seconds, if_neg fun h => h.1 (Nat.mul_mod_left d second)]
  exact Nat.mul_div_cancel d (by decide)

theorem seconds_le (d : Nat) : seconds d ≤ d / second + 1 := by
  rw [seconds]
  split
  · exact Nat.le_refl _
  · exact Nat.le_succ _

/-- Half of the last digit is too small in all durations of less than half a year. -/
theorem seconds_of_lt {d : Nat} (h : d < 2 ^ 24 * second) : seconds d = d / second := by
  have hpos : 0 < second := by decide
  rw [seconds, if_neg]
  rintro ⟨-, hlack⟩
  have hsec : d / second < 2 ^ 24 := (Nat.div_lt_iff_lt_mul hpos).mpr h
  have hlog : (d / second).log2 ≤ 23 := by
    by_cases hzero : d / second = 0
    · rw [hzero]
      decide
    · exact Nat.le_of_lt_succ ((Nat.log2_lt hzero).mpr hsec)
  have hpow := Nat.pow_le_pow_right (Nat.zero_lt_two) hlog
  have hlt := Nat.mod_lt d hpos
  have hfar : (2 ^ 54 * 1 + second) / (2 * second) ≤
      (2 ^ 54 * (second - d % second) + second) / (2 * second) :=
    Nat.div_le_div_right (Nat.add_le_add_right (Nat.mul_le_mul_left _ (by omega)) _)
  have hdigit : 2 ^ 23 < (2 ^ 54 * 1 + second) / (2 * second) := by decide
  omega

theorem getPositionAndCircle_second {w : Wheel n} (h : w.interval = second) (d : Nat) :
    getPositionAndCircle w (d * second) =
      some (slot n (w.currentPos + d), d / n) := by
  have hs : seconds second = 1 := by
    have hone := seconds_mul 1
    rwa [Nat.one_mul] at hone
  simp [getPositionAndCircle, seconds_mul, h, hs]

/-- Only the whole seconds of a delay count. -/
theorem addTask_seconds (value : Dynamic) (w : Wheel n) (delay : Nat) (key : Bytes) :
    addTask value w ⟨delay, key⟩ = addTask value w ⟨seconds delay * second, key⟩ := by
  simp only [addTask, getPositionAndCircle, seconds_mul]

/-- With an interval of one second an older element of the same key leaves first. -/
theorem addTask_second (value : Dynamic) {w : Wheel n} (h : w.interval = second)
    (hw : ∀ key loc, w.locationMap key = some loc → loc.elem < w.nextId) (d : Nat) (key : Bytes) :
    addTask value w ⟨d * second, key⟩ =
      let cleaned := if key = [] then w else removeTask w key
      let pos := slot n (w.currentPos + d)
      let pushed := pushBack cleaned pos ⟨w.nextId, value, d / n, key⟩
      some { pushed with
        locationMap := Function.update pushed.locationMap key (some ⟨pos, w.nextId⟩) } := by
  simp only [addTask, getPositionAndCircle_second h, Option.map_some]
  by_cases hk : key = []
  · simp [hk]
  · cases hl : w.locationMap key with
    | none => simp [hk, removeTask_none hl, pushBack, hl]
    | some loc =>
        have hs : ((pushBack w (slot n (w.currentPos + d))
            ⟨w.nextId, value, d / n, key⟩).locationMap key).isSome := by simp [pushBack, hl]
        rw [if_pos ⟨hk, hs⟩, if_neg hk, removeTask_pushBack w key _ _ rfl (hw key)]

end Traitor.TimeWheel
