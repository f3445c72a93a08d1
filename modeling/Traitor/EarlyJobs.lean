import Traitor.ExpiryWheel
import Traitor.JobWheel
import Traitor.Schedule

namespace Traitor.JobWheel

open Lib.Deadlines TimeWheel

inductive Handled
  | addTask (now : Int) (key : Bytes) (delay : Nat)
  | remove (key : Bytes)
  | tick
deriving DecidableEq

def Handled.event : Handled → Event Bytes
  | .addTask _ key delay => .add key (seconds delay)
  | .remove key => .remove key
  | .tick => .tick

def ofHandled (hs : List Handled) : List (Event Bytes) := hs.map Handled.event

/-- The elements that each tick runs, when the slots hold values of a dynamic type. -/
def handle (value : TimeWheel.Dynamic) (w : Wheel slotNums) : List Handled → Option (List (List Nat))
  | [] => some []
  | .addTask _ key delay :: hs =>
      (addTask value w ⟨delay, key⟩).bind fun w => handle value w hs
  | .remove key :: hs => handle value (handleRemove w key) hs
  | .tick :: hs =>
      (tick forgets w).bind fun ticked =>
        (handle value ticked.1 hs).map (ticked.2.map Element.id :: ·)

/-- The tasks are handled between the ticks, the first of them before tick `k`. -/
def Placed (start : Int) : Nat → List Handled → Prop
  | _, [] => True
  | k, .addTask now _ _ :: hs => instant start k - second ≤ now ∧ now ≤ instant start k ∧ Placed start k hs
  | k, .remove _ :: hs => Placed start k hs
  | k, .tick :: hs => Placed start (k + 1) hs

def Given (hs : List Handled) (i : Nat) (now : Int) (key : Bytes) (delay : Nat) : Prop :=
  ∃ before after, hs = before ++ .addTask now key delay :: after ∧ i = adds (ofHandled before)

def RunsNotBefore (start : Int) (hs : List Handled) (runs : List (List Nat)) : Prop :=
  ∀ i now key delay, Given hs i now key delay → ∀ k, i ∈ runs.getD k [] →
    now + delay ≤ instant start k

/-- What the cron library answers: an instant after the one asked for, and none that a duration
does not reach. -/
def Next (next : Int → Option Int) : Prop := ∀ t u, next t = some u → t < u ∧ u - t < 2 ^ 63

/-- The tasks of a timing job are those of `CreateTask`: the first one, and one after each run.
For each of them the clock is read twice, to ask for the next instant and to subtract. -/
structure Readded (next : Int → Option Int) (start : Int) (hs : List Handled)
    (runs : List (List Nat)) (key : Bytes) (asked subtracted : Nat → Int) : Prop where
  resolved : ∀ i now delay, Given hs i now key delay →
    asked i ≤ subtracted i ∧ subtracted i ≤ now ∧
      ∃ t, next (asked i) = some t ∧ (delay : Int) = Schedule.sub t (subtracted i)
  after_run : ∀ i now delay j now' delay', Given hs i now key delay → Given hs j now' key delay' →
    i < j → ∃ k, i ∈ runs.getD k [] ∧ instant start k ≤ asked j

/-- No two runs are for the same instant of the cron library. -/
def RunsOnce (next : Int → Option Int) (hs : List Handled) (runs : List (List Nat)) (key : Bytes)
    (asked : Nat → Int) : Prop :=
  ∀ i now delay j now' delay', Given hs i now key delay → Given hs j now' key delay' →
    next (asked i) = next (asked j) → ∀ k l, i ∈ runs.getD k [] → j ∈ runs.getD l [] →
      i = j ∧ k = l ∧ (runs.getD k []).count i = 1

def NeverEarly (value : TimeWheel.Dynamic) (start : Int) (hs : List Handled) : Prop :=
  ∃ runs, handle value makeTimeWheel hs = some runs ∧ RunsNotBefore start hs runs ∧
    ∀ next, Next next → ∀ key asked subtracted,
      Readded next start hs runs key asked subtracted → RunsOnce next hs runs key asked

/-- A task that is there at the tick it waits for is added no more than its delay before. -/
def InPhase (start : Int) (hs : List Handled) : Prop :=
  ∀ before now key delay after, hs = before ++ .addTask now key delay :: after →
    survives [] key (seconds delay) (ofHandled after) = true →
      now + delay ≤ instant start (ticks (ofHandled before) + seconds delay)

/-- With the slots as they are no tick finds a task in its slot. -/
def Kept (value : TimeWheel.Dynamic) (start : Int) (hs : List Handled) : Prop :=
  match value with
  | .task => clears (ofHandled hs) = true
  | .pointer => InPhase start hs

theorem handle_eq_run (value : TimeWheel.Dynamic) (w : Wheel slotNums) (hs : List Handled) :
    handle value w hs = (TimeWheel.run value forgets w (ofHandled hs)).map Prod.snd := by
  induction hs generalizing w with
  | nil => rfl
  | cons h hs ih =>
      cases h with
      | addTask now key delay =>
          rw [handle, addTask_seconds]
          change _ = ((addTask value w ⟨seconds delay * second, key⟩).bind _).map Prod.snd
          rw [Option.map_bind]
          congr 1
          funext w'
          exact ih w'
      | remove key => exact ih _
      | tick =>
          change (tick forgets w).bind _ = ((tick forgets w).bind _).map Prod.snd
          rw [Option.map_bind]
          congr 1
          funext ticked
          rw [ih, Function.comp_apply, Option.map_map, Option.map_map]
          rfl

theorem ofHandled_append (hs hs' : List Handled) :
    ofHandled (hs ++ hs') = ofHandled hs ++ ofHandled hs' := List.map_append

variable {start : Int} {hs : List Handled}

theorem ran_iff {runs : List (List Nat)} (h : RunsOnTime [] (ofHandled hs) runs)
    {before after : List Handled} {now : Int} {key : Bytes} {delay : Nat}
    (heq : hs = before ++ .addTask now key delay :: after) (k : Nat) :
    (runs.getD k []).count (adds (ofHandled before)) =
      if survives [] key (seconds delay) (ofHandled after) ∧
        k = ticks (ofHandled before) + seconds delay then 1 else 0 := by
  refine h (ofHandled before) key (seconds delay) (ofHandled after) ?_ k
  rw [heq, ofHandled_append]
  rfl

theorem mem_runs_iff {runs : List (List Nat)} (h : RunsOnTime [] (ofHandled hs) runs)
    {before after : List Handled} {now : Int} {key : Bytes} {delay : Nat}
    (heq : hs = before ++ .addTask now key delay :: after) (k : Nat) :
    adds (ofHandled before) ∈ runs.getD k [] ↔
      survives [] key (seconds delay) (ofHandled after) = true ∧
        k = ticks (ofHandled before) + seconds delay := by
  rw [← List.count_pos_iff, ran_iff h heq]
  split
  · next hin => exact iff_of_true Nat.one_pos hin
  · next hout => exact iff_of_false (Nat.lt_irrefl 0) hout

theorem runsNotBefore_iff {runs : List (List Nat)} (h : RunsOnTime [] (ofHandled hs) runs) :
    RunsNotBefore start hs runs ↔ InPhase start hs := by
  constructor
  · intro hnot before now key delay after heq hsurvives
    refine hnot _ now key delay ⟨before, after, heq, rfl⟩ _ ?_
    exact (mem_runs_iff h heq _).mpr ⟨hsurvives, rfl⟩
  · rintro hphase i now key delay ⟨before, after, heq, rfl⟩ k hran
    obtain ⟨hsurvives, rfl⟩ := (mem_runs_iff h heq k).mp hran
    exact hphase before now key delay after heq hsurvives

/-- A run that is not early is not before the instant that the cron library answered. -/
theorem next_le {next : Int → Option Int} (hnext : Next next) {asked subtracted now t : Int}
    {delay : Nat} (hasked : asked ≤ subtracted) (hsub : subtracted ≤ now)
    (ht : next asked = some t) (hdelay : (delay : Int) = Schedule.sub t subtracted) :
    t ≤ now + delay := by
  have hreach := (hnext asked t ht).2
  rw [Schedule.sub] at hdelay
  omega

theorem runsOnce {runs : List (List Nat)} (h : RunsOnTime [] (ofHandled hs) runs)
    (hnot : RunsNotBefore start hs runs) {next : Int → Option Int} (hnext : Next next)
    {key : Bytes} {asked subtracted : Nat → Int}
    (hreadded : Readded next start hs runs key asked subtracted) :
    RunsOnce next hs runs key asked := by
  have hlater (i j : Nat) (now now' : Int) (delay delay' : Nat) (hi : Given hs i now key delay)
      (hj : Given hs j now' key delay') (hij : i < j) : next (asked i) ≠ next (asked j) := by
    obtain ⟨hasked, hsub, t, ht, hdelay⟩ := hreadded.resolved i now delay hi
    obtain ⟨k, hran, hinstant⟩ := hreadded.after_run i now delay j now' delay' hi hj hij
    have htarget := next_le hnext hasked hsub ht hdelay
    have hnotbefore := hnot i now key delay hi k hran
    intro heq
    have hafter := (hnext (asked j) t (heq ▸ ht)).1
    omega
  intro i now delay j now' delay' hi hj heq k l hk hl
  rcases Nat.lt_trichotomy i j with hij | rfl | hij
  · exact absurd heq (hlater i j now now' delay delay' hi hj hij)
  · obtain ⟨before, after, hhs, rfl⟩ := hi
    have hcount := ran_iff h hhs k
    rw [if_pos ((mem_runs_iff h hhs k).mp hk)] at hcount
    exact ⟨rfl, ((mem_runs_iff h hhs k).mp hk).2.trans ((mem_runs_iff h hhs l).mp hl).2.symm, hcount⟩
  · exact absurd heq.symm (hlater j i now' now delay' delay hj hi hij)

theorem neverEarly_of_runs {value : TimeWheel.Dynamic} {runs : List (List Nat)}
    (hrun : handle value makeTimeWheel hs = some runs) (h : RunsOnTime [] (ofHandled hs) runs) :
    NeverEarly value start hs ↔ InPhase start hs := by
  rw [← runsNotBefore_iff h]
  constructor
  · rintro ⟨runs', hrun', hnot, -⟩
    rw [hrun, Option.some.injEq] at hrun'
    rwa [hrun']
  · intro hnot
    exact ⟨runs, hrun, hnot, fun next hnext key asked subtracted hreadded =>
      runsOnce h hnot hnext hreadded⟩

theorem getD_replicate (m k : Nat) : (List.replicate m ([] : List Nat)).getD k [] = [] := by
  by_cases hk : k < m
  · simp [List.getD, hk]
  · simp [List.getD, hk]

/-- A wheel that holds pointers runs every task on time, and one that holds tasks runs none. -/
theorem neverEarly_iff (value : TimeWheel.Dynamic) (start : Int) (hs : List Handled)
    (hremove : Handled.remove [] ∉ hs) : NeverEarly value start hs ↔ Kept value start hs := by
  cases value with
  | pointer =>
      have hevents : Event.remove [] ∉ ofHandled hs := by
        intro hmem
        obtain ⟨h, hh, hevent⟩ := List.mem_map.mp hmem
        cases h with
        | addTask now key delay => cases hevent
        | remove key =>
            obtain rfl := Event.remove.inj hevent
            exact hremove hh
        | tick => cases hevent
      have hforgets (key : Bytes) (_ : key ≠ []) : forgets key = true := rfl
      obtain ⟨w, s, hrun, -⟩ := (ExpiryWheel.make_represents (n := slotNums)).run hforgets
        (ofHandled hs) hevents
      have hhandle : handle .pointer makeTimeWheel hs = some (trace [] State.empty (ofHandled hs)) := by
        rw [handle_eq_run]
        exact congrArg (Option.map Prod.snd) hrun
      exact neverEarly_of_runs hhandle (trace_runsOnTime [] (ofHandled hs))
  | task =>
      have hhandle : handle .task makeTimeWheel hs =
          (run makeTimeWheel (ofHandled hs)).map Prod.snd := handle_eq_run _ _ _
      obtain ⟨hclears, hpanics⟩ := run_clears makeTimeWheel_parked (ofHandled hs)
      have hinit : WillLeave makeTimeWheel (ofHandled hs) := fun i e he => by cases he
      constructor
      · rintro ⟨runs, hrun, -⟩
        by_contra hno
        rw [hhandle, hpanics fun hc => hno hc.2] at hrun
        cases hrun
      · intro hc
        obtain ⟨w, hrun⟩ := hclears ⟨hinit, hc⟩
        rw [hrun] at hhandle
        have hnone (i k : Nat) : i ∉ (List.replicate (ticks (ofHandled hs)) []).getD k [] := by
          rw [getD_replicate]
          exact List.not_mem_nil
        refine ⟨_, hhandle, fun i now key delay _ k hran => absurd hran (hnone i k), ?_⟩
        intro next _ key asked subtracted _ i now delay j now' delay' _ _ _ k l hk
        exact absurd hk (hnone i k)

/-- Short of half a year only the fraction of the delay counts: it has to pass before the next
tick. -/
theorem in_time_iff (start now : Int) {delay : Nat} (hdelay : delay < 2 ^ 24 * second) (k : Nat) :
    now + delay ≤ instant start (k + seconds delay) ↔
      now + (delay % second : Nat) ≤ instant start k := by
  have hsplit := Nat.div_add_mod delay second
  rw [seconds_of_lt hdelay, instant, instant]
  simp only [second] at hsplit ⊢
  omega

theorem given_nil (i : Nat) (now : Int) (key : Bytes) (delay : Nat) :
    ¬ Given [] i now key delay := by
  rintro ⟨before, after, heq, -⟩
  cases before <;> cases heq

theorem given_cons_iff (h : Handled) (hs : List Handled) (i : Nat) (now : Int) (key : Bytes)
    (delay : Nat) : Given (h :: hs) i now key delay ↔
      h = .addTask now key delay ∧ i = 0 ∨
        ∃ j, Given hs j now key delay ∧ i = j + adds [h.event] := by
  have hadds (before : List Handled) :
      adds (ofHandled (h :: before)) = adds (ofHandled before) + adds [h.event] := by
    cases h <;> rfl
  constructor
  · rintro ⟨before, after, heq, rfl⟩
    cases before with
    | nil =>
        obtain ⟨rfl, rfl⟩ := List.cons.inj heq
        exact .inl ⟨rfl, rfl⟩
    | cons h' before =>
        obtain ⟨rfl, rfl⟩ := List.cons.inj heq
        exact .inr ⟨_, ⟨before, after, rfl, rfl⟩, hadds before⟩
  · rintro (⟨rfl, rfl⟩ | ⟨j, ⟨before, after, rfl, rfl⟩, rfl⟩)
    · exact ⟨[], hs, rfl, rfl⟩
    · exact ⟨h :: before, after, rfl, (hadds before).symm⟩

/-- A job for every even second, on a wheel whose ticks are halfway between the seconds. -/
def everyOther (t : Int) : Option Int := some ((t / (2 * second) + 1) * (2 * second))

def halfway : Int := 500000000

/-- The job is added 0.6 s before its instant, and again after the run 0.1 s later. -/
def twice : List Handled :=
  [.addTask 1400000000 (bytes "job") 600000000, .tick,
    .addTask 1600000000 (bytes "job") 400000000, .tick]

theorem neverEarly_iff_twice : NeverEarly .pointer halfway twice ↔ Kept .pointer halfway twice :=
  neverEarly_iff .pointer halfway twice (by decide)

def twiceAsked (i : Nat) : Int := if i = 0 then 1400000000 else 1600000000

theorem everyOther_next : Next everyOther := by
  intro t u hu
  obtain rfl := Option.some.inj hu
  simp only [second]
  omega

theorem given_twice {i : Nat} {now : Int} {key : Bytes} {delay : Nat} (h : Given twice i now key delay) :
    i = 0 ∧ now = 1400000000 ∧ delay = 600000000 ∨ i = 1 ∧ now = 1600000000 ∧ delay = 400000000 := by
  have hrest (j : Nat) (hj : Given [.addTask 1600000000 (bytes "job") 400000000, .tick] j now key delay) :
      j = 0 ∧ now = 1600000000 ∧ delay = 400000000 := by
    rcases (given_cons_iff _ _ _ _ _ _).mp hj with ⟨heq, rfl⟩ | ⟨k, hk, -⟩
    · obtain ⟨rfl, -, rfl⟩ := Handled.addTask.inj heq
      exact ⟨rfl, rfl, rfl⟩
    · rcases (given_cons_iff _ _ _ _ _ _).mp hk with ⟨heq, -⟩ | ⟨l, hl, -⟩
      · cases heq
      · exact absurd hl (given_nil _ _ _ _)
  rcases (given_cons_iff _ _ _ _ _ _).mp h with ⟨heq, rfl⟩ | ⟨j, hj, rfl⟩
  · obtain ⟨rfl, -, rfl⟩ := Handled.addTask.inj heq
    exact .inl ⟨rfl, rfl, rfl⟩
  · rcases (given_cons_iff _ _ _ _ _ _).mp hj with ⟨heq, -⟩ | ⟨k, hk, rfl⟩
    · cases heq
    · obtain ⟨rfl, rfl, rfl⟩ := hrest _ hk
      exact .inr ⟨rfl, rfl, rfl⟩

/-- The wheel with tasks in its slots panics, and with pointers in them the job is run at 1.5 s
and at 2.5 s, both times for the second 2. -/
theorem early_twice : Placed halfway 0 twice ∧ ¬ NeverEarly .task halfway twice ∧
    ¬ NeverEarly .pointer halfway twice ∧
      ∃ runs, handle .pointer makeTimeWheel twice = some runs ∧
        Readded everyOther halfway twice runs (bytes "job") twiceAsked twiceAsked ∧
          Next everyOther ∧ ¬ RunsOnce everyOther twice runs (bytes "job") twiceAsked := by
  have hpointer : handle .pointer makeTimeWheel twice = some [[0], [1]] := by decide
  have htask : handle .task makeTimeWheel twice = none := by decide
  have hfirst : Given twice 0 1400000000 (bytes "job") 600000000 := ⟨[], _, rfl, rfl⟩
  have hsecond : Given twice 1 1600000000 (bytes "job") 400000000 :=
    ⟨[.addTask 1400000000 (bytes "job") 600000000, .tick], [.tick], rfl, rfl⟩
  refine ⟨?_, ?_, ?_, _, hpointer, ⟨?_, ?_⟩, everyOther_next, ?_⟩
  · rw [twice, Placed, Placed, Placed, Placed, Placed]
    exact ⟨by decide, by decide, by decide, by decide, trivial⟩
  · rintro ⟨runs, hrun, -⟩
    rw [htask] at hrun
    cases hrun
  · rintro ⟨runs, hrun, hnot, -⟩
    rw [hpointer, Option.some.injEq] at hrun
    subst hrun
    have hearly := hnot 0 _ _ _ hfirst 0 (by decide)
    exact absurd hearly (by decide)
  · intro i now delay hgiven
    rcases given_twice hgiven with ⟨rfl, rfl, rfl⟩ | ⟨rfl, rfl, rfl⟩
    · exact ⟨by decide, by decide, _, rfl, by decide⟩
    · exact ⟨by decide, by decide, _, rfl, by decide⟩
  · intro i now delay j now' delay' hi hj hij
    have hi' := given_twice hi
    have hj' := given_twice hj
    obtain rfl : i = 0 := by omega
    obtain rfl : j = 1 := by omega
    exact ⟨0, by decide, by decide⟩
  · intro honce
    have htwice := honce 0 _ _ 1 _ _ hfirst hsecond (by decide) 0 1 (by decide) (by decide)
    exact absurd htwice.1 (by decide)

end Traitor.JobWheel
