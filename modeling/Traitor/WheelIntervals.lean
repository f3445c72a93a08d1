import Mathlib.Tactic.Linarith
import Traitor.ExpiryWheel

namespace Traitor.ExpiryWheel

open Lib.Deadlines TimeWheel

variable {n : Nat} [NeZero n] {interval delay : Nat} {es : List (Event Bytes)}

def handle (w : Wheel n) : List (Event Bytes) → Option (Wheel n × List (List Nat))
  | [] => some (w, [])
  | .add key delay :: es => (addTask w ⟨delay, key⟩).bind (handle · es)
  | .remove key :: es => handle (removeTask w key) es
  | .tick :: es =>
      (tick forgets w).bind fun (w, ran) =>
        (handle w es).map fun (w, runs) => (w, ran.map Element.id :: runs)

def inTicks (interval : Nat) : Event Bytes → Event Bytes
  | .add key delay => .add key (seconds delay / seconds interval)
  | .remove key => .remove key
  | .tick => .tick

def paced (i : Nat) (w : Wheel n) : Wheel n := { w with interval := i }

omit [NeZero n] in
theorem removeTask_paced (i : Nat) (w : Wheel n) (key : Bytes) :
    removeTask (paced i w) key = paced i (removeTask w key) := by
  simp only [removeTask, TimeWheel.removeTask, paced]
  cases w.locationMap key <;> rfl

theorem tick_paced (i : Nat) (w : Wheel n) :
    tick forgets (paced i w) = (tick forgets w).map fun r => (paced i r.1, r.2) := by
  simp only [tick, TimeWheel.scanAndRunTask, paced, tickHandler]
  cases scan (w.slots w.currentPos) <;> rfl

theorem tick_interval {w w' : Wheel n} {ran : List Element} (h : tick forgets w = some (w', ran)) :
    w'.interval = w.interval := by
  rw [tick, TimeWheel.scanAndRunTask, Option.map_eq_some_iff] at h
  obtain ⟨a, -, ha⟩ := h
  exact (congrArg (fun r => r.1.interval) ha).symm

theorem addTask_interval {w w' : Wheel n} {t : Task} (h : addTask w t = some w') : w'.interval = w.interval := by
  rw [addTask, TimeWheel.addTask, Option.map_eq_some_iff] at h
  obtain ⟨a, -, rfl⟩ := h
  dsimp only
  split
  · exact removeTask_interval _ _
  · rfl

/-- A wheel takes as many steps for a delay as one of ticks of a second for so many seconds. -/
theorem addTask_paced {w : Wheel n} (hw : w.interval = second) (hi : seconds interval ≠ 0) (delay : Nat)
    (key : Bytes) : addTask (paced interval w) ⟨delay, key⟩ =
      (addTask w ⟨seconds delay / seconds interval * second, key⟩).map (paced interval) := by
  have hpos : getPositionAndCircle (paced interval w) delay =
      getPositionAndCircle w (seconds delay / seconds interval * second) := by
    rw [getPositionAndCircle_second hw, getPositionAndCircle]
    exact if_neg hi
  rw [addTask, addTask, TimeWheel.addTask, TimeWheel.addTask, hpos, getPositionAndCircle_second hw]
  simp only [Option.map_some, Option.some_inj]
  have hpushed (pos : Fin n) (e : Element) : pushBack (paced interval w) pos e = paced interval (pushBack w pos e) := rfl
  have hremoved (v : Wheel n) : TimeWheel.removeTask (paced interval v) key = paced interval (TimeWheel.removeTask v key) :=
    removeTask_paced interval v key
  have hmap (v : Wheel n) : (paced interval v).locationMap = v.locationMap := rfl
  have hnext : (paced interval w).nextId = w.nextId := rfl
  simp only [hpushed, hremoved, hmap, hnext]
  split <;> rfl

theorem handle_paced {w : Wheel n} (hw : w.interval = second) (hi : seconds interval ≠ 0) (es : List (Event Bytes)) :
    handle (paced interval w) es =
      (run w (es.map (inTicks interval))).map fun r => (paced interval r.1, r.2) := by
  induction es generalizing w with
  | nil => rfl
  | cons e es ih =>
      cases e with
      | add key delay =>
          rw [handle, addTask_paced hw hi]
          change _ = ((addTask w ⟨seconds delay / seconds interval * second, key⟩).bind
            fun w => run w (es.map (inTicks interval))).map _
          cases hadd : addTask w ⟨seconds delay / seconds interval * second, key⟩ with
          | none => rfl
          | some w' => exact ih ((addTask_interval hadd).trans hw)
      | remove key =>
          rw [handle, removeTask_paced]
          exact ih ((removeTask_interval w key).trans hw)
      | tick =>
          rw [handle, tick_paced]
          change _ = ((tick forgets w).bind fun (w, ran) =>
            (run w (es.map (inTicks interval))).map fun (w, runs) => (w, ran.map Element.id :: runs)).map _
          cases htick : tick forgets w with
          | none => rfl
          | some r =>
              simp only [Option.map_some, Option.bind_some, ih ((tick_interval htick).trans hw)]
              cases run r.1 (es.map (inTicks interval)) <;> rfl

theorem adds_inTicks (interval : Nat) (es : List (Event Bytes)) : adds (es.map (inTicks interval)) = adds es := by
  induction es with
  | nil => rfl
  | cons e es ih => cases e <;> simp [inTicks, adds, ih]

theorem ticks_inTicks (interval : Nat) (es : List (Event Bytes)) : ticks (es.map (inTicks interval)) = ticks es := by
  induction es with
  | nil => rfl
  | cons e es ih => cases e <;> simp [inTicks, ticks, ih]

/-- How long a delay is does not matter to the tasks before it. -/
theorem survives_inTicks (interval : Nat) (key : Bytes) (k : Nat) (es : List (Event Bytes)) :
    survives [] key k (es.map (inTicks interval)) = survives [] key k es := by
  induction es generalizing k with
  | nil => rfl
  | cons e es ih => cases e <;> cases k <;> simp [inTicks, survives, ih]

theorem trace_survives (key : Bytes) (k : Nat) : survives [] key k (List.replicate (k + 1) .tick) = true := by
  induction k with
  | zero => rfl
  | succ k ih => exact ih

/-- A task is run once, at the tick that is `k` ticks away, unless it is removed or replaced before. -/
def RunsAfter (runs : List (List Nat)) (before : List (Event Bytes)) (key : Bytes) (after : List (Event Bytes))
    (k : Nat) : Prop :=
  ∀ t, (runs.getD t []).count (adds before) =
    if survives [] key (k - 1) after ∧ t + 1 = ticks before + k then 1 else 0

structure Works (interval n : Nat) [NeZero n] (delay : Nat) : Prop where
  placed : ∀ w : Wheel n, w.interval = interval →
    ∃ pos circle, getPositionAndCircle w delay = some (pos, circle) ∧ pos.val < n
  reached : ∀ before key after, Event.remove [] ∉ before ++ .add key delay :: after →
    ∃ w runs k, (new interval n).bind (handle · (before ++ .add key delay :: after)) = some (w, runs) ∧
      RunsAfter runs before key after k ∧ delay ≤ k * interval ∧ k * interval ≤ delay + 2 * interval

/-- What an interval has more than the seconds that count for it; less than nothing where they are rounded up. -/
def fraction (interval : Nat) : Int := interval - seconds interval * second

/-- The fractions of the intervals that fit into the delay do not add up to more than an interval. -/
structure InStep (interval delay : Nat) : Prop where
  counted : seconds interval ≠ 0
  behind : (seconds delay / seconds interval : Nat) * fraction interval ≤
    delay - (seconds delay / seconds interval : Nat) * (seconds interval * second) + interval
  ahead : ((seconds delay / seconds interval : Nat) + 1) * -fraction interval ≤
    ((seconds delay / seconds interval : Nat) + 1) * (seconds interval * second) - delay

theorem handle_runs (hi : 0 < interval) (hseconds : seconds interval ≠ 0) {before after : List (Event Bytes)}
    {key : Bytes} (hes : Event.remove [] ∉ before ++ .add key delay :: after) :
    ∃ w runs, (new interval n).bind (handle · (before ++ .add key delay :: after)) = some (w, runs) ∧
      RunsAfter runs before key after (seconds delay / seconds interval + 1) := by
  let es := (before ++ .add key delay :: after).map (inTicks interval)
  have hremove : Event.remove [] ∉ es := by
    intro hmem
    obtain ⟨e, he, heq⟩ := List.mem_map.mp hmem
    cases e with
    | remove key' =>
        cases heq
        exact hes he
    | add => cases heq
    | tick => cases heq
  have hforgets (key : Bytes) (hkey : key ≠ []) : forgets key = true := decide_eq_true hkey
  obtain ⟨w, s, hrun, -⟩ := (make_represents (n := n)).run hforgets es hremove
  have hhandle : handle (paced interval (make second n)) (before ++ .add key delay :: after) =
      some (paced interval w, trace [] State.empty es) := by
    rw [handle_paced rfl hseconds]
    exact congrArg (Option.map _) hrun
  refine ⟨paced interval w, trace [] State.empty es, ?_, fun t => ?_⟩
  · rw [new, if_neg (Nat.ne_of_gt hi)]
    exact hhandle
  · have hcount := trace_runsOnTime [] es (before.map (inTicks interval)) key (seconds delay / seconds interval)
      (after.map (inTicks interval)) (by simp [es, inTicks]) t
    rw [adds_inTicks, ticks_inTicks, survives_inTicks] at hcount
    rw [hcount, Nat.add_sub_cancel]
    apply if_congr _ rfl rfl
    exact and_congr_right fun _ => by omega

theorem le_seconds (d : Nat) : d / second ≤ seconds d := by
  rw [seconds]
  split
  · exact Nat.le_succ _
  · exact Nat.le_refl _

/-- Where no second is added to the interval the task is not early. -/
theorem ahead_of_nonneg (hseconds : seconds interval ≠ 0) (hf : 0 ≤ fraction interval) (delay : Nat) :
    ((seconds delay / seconds interval : Nat) + 1) * -fraction interval ≤
      ((seconds delay / seconds interval : Nat) + 1) * (seconds interval * second) - delay := by
  have hpos : 0 < seconds interval := Nat.pos_of_ne_zero hseconds
  have hdelay : delay ≤ (seconds delay + 1) * second := by
    calc delay ≤ (delay / second + 1) * second := Nat.le_of_lt (Nat.lt_mul_of_div_lt (Nat.lt_succ_self _) (by decide))
      _ ≤ (seconds delay + 1) * second := Nat.mul_le_mul_right _ (Nat.succ_le_succ (le_seconds delay))
  have hperiods : seconds delay + 1 ≤ (seconds delay / seconds interval + 1) * seconds interval :=
    Nat.lt_mul_of_div_lt (Nat.lt_succ_self _) hpos
  have hle : delay ≤ (seconds delay / seconds interval + 1) * (seconds interval * second) := by
    rw [← Nat.mul_assoc]
    exact hdelay.trans (Nat.mul_le_mul_right _ hperiods)
  have hneg : ((seconds delay / seconds interval : Nat) + 1 : Int) * -fraction interval ≤ 0 :=
    mul_nonpos_of_nonneg_of_nonpos (by positivity) (Int.neg_nonpos_of_nonneg hf)
  have hle' : (delay : Int) ≤ ((seconds delay / seconds interval : Nat) + 1) * (seconds interval * second) := by
    exact_mod_cast hle
  linarith

/-- A whole number of seconds is in step with every delay. -/
theorem inStep_of_whole {s : Nat} (hs : 0 < s) (delay : Nat) : InStep (s * second) delay := by
  have hseconds : seconds (s * second) = s := seconds_mul s
  have hfraction : fraction (s * second) = 0 := by
    rw [fraction, hseconds, Nat.cast_mul, Int.sub_self]
  refine ⟨by omega, ?_, ahead_of_nonneg (by omega) (Int.le_of_eq hfraction.symm) delay⟩
  have hperiods : seconds delay / s * (s * second) ≤ delay + s * second := by
    calc seconds delay / s * (s * second) = seconds delay / s * s * second := (Nat.mul_assoc _ _ _).symm
      _ ≤ seconds delay * second := Nat.mul_le_mul_right _ (Nat.div_mul_le_self _ _)
      _ ≤ (delay / second + 1) * second := Nat.mul_le_mul_right _ (seconds_le delay)
      _ = delay / second * second + 1 * second := Nat.add_mul _ _ _
      _ ≤ delay + s * second := Nat.add_le_add (Nat.div_mul_le_self _ _) (Nat.mul_le_mul_right _ hs)
  have hperiods' : ((seconds delay / s : Nat) : Int) * (s * second) ≤ delay + s * second := by
    exact_mod_cast hperiods
  rw [hfraction, hseconds, Int.mul_zero, Nat.cast_mul]
  linarith

/-- Of an interval of less than half a year the fraction is what is behind the whole seconds. -/
theorem inStep_iff (h : interval < 2 ^ 24 * second) (delay : Nat) :
    InStep interval delay ↔ second ≤ interval ∧
      ((seconds delay / (interval / second) : Nat) : Int) * (interval % second : Nat) ≤
        delay - (seconds delay / (interval / second) : Nat) * ((interval / second : Nat) * second) + interval := by
  have hseconds := seconds_of_lt h
  have hfraction : fraction interval = (interval % second : Nat) := by
    have hdivmod := Nat.div_add_mod' interval second
    rw [fraction, hseconds]
    omega
  have hcounted : seconds interval ≠ 0 ↔ second ≤ interval := by
    rw [hseconds, ← Nat.pos_iff_ne_zero, Nat.div_pos_iff]
    exact and_iff_right (by decide)
  constructor
  · rintro ⟨hcount, hbehind, -⟩
    rw [hfraction, hseconds] at hbehind
    exact ⟨hcounted.mp hcount, hbehind⟩
  · rintro ⟨hle, hbehind⟩
    have hcount := hcounted.mpr hle
    refine ⟨hcount, ?_, ahead_of_nonneg hcount ?_ delay⟩
    · rw [hfraction, hseconds]
      exact hbehind
    · rw [hfraction]
      exact Int.natCast_nonneg _

theorem works_iff (n : Nat) [NeZero n] (hi : 0 < interval) (delay : Nat) :
    Works interval n delay ↔ InStep interval delay := by
  have hahead (m : Nat) : (delay : Int) ≤ (m + 1 : Nat) * interval ↔
      (m + 1 : Int) * -fraction interval ≤ (m + 1) * (seconds interval * second) - delay := by
    rw [fraction]
    push_cast
    constructor <;> intro h <;> linarith
  have hbehind (m : Nat) : ((m + 1 : Nat) * interval : Int) ≤ delay + 2 * interval ↔
      m * fraction interval ≤ delay - m * (seconds interval * second) + interval := by
    rw [fraction]
    push_cast
    constructor <;> intro h <;> linarith
  constructor
  · rintro ⟨hplaced, hreached⟩
    have hseconds : seconds interval ≠ 0 := by
      intro hzero
      obtain ⟨pos, circle, hpos, -⟩ := hplaced (make interval n) rfl
      rw [getPositionAndCircle, show (make interval n).interval = interval from rfl, hzero] at hpos
      cases hpos
    have hes : Event.remove [] ∉ [] ++ .add [] delay ::
        List.replicate (seconds delay / seconds interval + 1) (Event.tick : Event Bytes) := by
      simp
    obtain ⟨w, runs, k, hrun, hk, hlow, hhigh⟩ := hreached [] [] _ hes
    obtain ⟨w', runs', hrun', hq⟩ := handle_runs (n := n) hi hseconds hes
    obtain ⟨-, rfl⟩ := Prod.mk.inj (Option.some.inj (hrun.symm.trans hrun'))
    have hran := (hq (seconds delay / seconds interval)).trans
      (if_pos ⟨trace_survives [] _, by rw [ticks, Nat.zero_add]⟩)
    have hkq : k = seconds delay / seconds interval + 1 := by
      rw [hk] at hran
      split at hran
      · rename_i h
        rw [ticks, Nat.zero_add] at h
        exact h.2.symm
      · cases hran
    subst hkq
    refine ⟨hseconds, (hbehind _).mp ?_, (hahead _).mp ?_⟩
    · exact_mod_cast hhigh
    · exact_mod_cast hlow
  · rintro ⟨hseconds, hb, ha⟩
    constructor
    · rintro w rfl
      exact ⟨_, _, if_neg hseconds, Fin.isLt _⟩
    · intro before key after hes
      obtain ⟨w, runs, hrun, hk⟩ := handle_runs (n := n) hi hseconds hes
      refine ⟨w, runs, _, hrun, hk, ?_, ?_⟩
      · exact_mod_cast (hahead _).mpr ha
      · exact_mod_cast (hbehind _).mpr hb

theorem works_iff_second : Works second 3 1500000000 :=
  (works_iff 3 (by decide) 1500000000).mpr (inStep_of_whole Nat.one_pos 1500000000)

/-- Half a second is no second. -/
theorem works_fails : ¬ Works 500000000 3 0 := by
  intro hworks
  obtain ⟨pos, circle, hpos, -⟩ := hworks.placed (make 500000000 3) rfl
  have hnone : getPositionAndCircle (make 500000000 3) 0 = none := by decide
  rw [hnone] at hpos
  cases hpos

end Traitor.ExpiryWheel
