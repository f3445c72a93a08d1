import Traitor.ExpiryWheel
import Traitor.Lib.LateScans

namespace Traitor.ExpiryWheel

open Lib.Deadlines Lib.LateScans TimeWheel

variable {n : Nat} [NeZero n]

/-- The wheel with the goroutines that have not scanned yet: the tick that started each of
them, and the slot it was given. -/
structure Scans (n : Nat) where
  wheel : Wheel n
  ticks : Nat
  started : List (Nat × Fin n)

def Scans.start (n : Nat) [NeZero n] : Scans n := ⟨make second n, 0, []⟩

def Scans.tickHandler (s : Scans n) : Scans n :=
  ⟨TimeWheel.tickHandler s.wheel, s.ticks + 1, (s.ticks, s.wheel.currentPos) :: s.started⟩

/-- The tasks that each scan runs, under the tick that started it. None is a panic, or the scan of
a tick that has none to come. -/
def Scans.run (s : Scans n) : List (Action Bytes) → Option (List (Nat × List Nat))
  | [] => some []
  | .event (.add key delay) :: as =>
      (addTask s.wheel ⟨delay, key⟩).bind fun w => Scans.run { s with wheel := w } as
  | .event (.remove key) :: as => Scans.run { s with wheel := removeTask s.wheel key } as
  | .event .tick :: as => Scans.run s.tickHandler as
  | .scan t :: as =>
      (s.started.lookup t).bind fun l =>
        (scanAndRunTask s.wheel l).bind fun scanned =>
          (Scans.run ⟨scanned.1, s.ticks, s.started.filter fun g => ¬ g.1 = t⟩ as).map
            ((t, scanned.2.map Element.id) :: ·)

/-- The ticks that the wheel sees before a task: a scan that is still to come takes one
revolution off. -/
def view (n : Nat) (c : Clock) (p : Lib.LateScans.Task Bytes) : Pending Bytes :=
  ⟨p.id, p.key, p.due + (if c.Late n p.due then n else 0) - c.ticks⟩

structure Simulates (s : Scans n) (q : Queue Bytes) : Prop where
  wheel : Represents s.wheel ⟨q.next, q.tasks.map (view n q.clock)⟩
  ticks : s.ticks = q.clock.ticks
  position : s.wheel.currentPos = slot n q.clock.ticks
  started : s.started = q.clock.unscanned.map fun t => (t, slot n t)
  regular : q.Regular n

theorem start_simulates : Simulates (Scans.start n) .empty where
  wheel := make_represents
  ticks := rfl
  position := by
    rw [slot, Fin.ext_iff]
    exact (Nat.zero_mod n).symm
  started := rfl
  regular := Queue.empty_regular

theorem slot_eq_iff (t u : Nat) : slot n t = slot n u ↔ t % n = u % n := Fin.mk.injEq _ _ _ _ ▸ Iff.rfl

variable {s : Scans n} {q : Queue Bytes}

omit [NeZero n] in
/-- The tick that a task waits for is not past, when a scan of its slot that is still to come is
taken into account. -/
theorem ticks_le {c : Clock} {due : Nat} (hfits : c.Fits n) (h : due ∈ c.unscanned ∨ c.ticks ≤ due) :
    c.ticks ≤ due + (if c.Late n due then n else 0) := by
  rcases h with h | h
  · rw [if_pos ⟨due, h, rfl⟩]
    exact (hfits due h).2
  · exact Nat.le_trans h (Nat.le_add_right _ _)

theorem Simulates.slotOf_view (h : Simulates s q) {p : Lib.LateScans.Task Bytes} (hp : p ∈ q.tasks) :
    slotOf s.wheel (view n q.clock p) = slot n p.due := by
  have hle := ticks_le h.regular.fits (h.regular.ahead p hp)
  have hsum : q.clock.ticks + (view n q.clock p).rem =
      p.due + (if q.clock.Late n p.due then n else 0) := by
    rw [view]
    dsimp only
    omega
  rw [slotOf, h.position]
  change slot n (q.clock.ticks % n + (view n q.clock p).rem) = _
  rw [slot_mod_add, hsum, slot_eq_iff]
  split
  · exact Nat.add_mod_right _ _
  · rfl

omit [NeZero n] in
theorem turn_view {c : Clock} {p : Lib.LateScans.Task Bytes} (hfits : c.Fits n)
    (hlast : ∀ t ∈ c.unscanned, c.ticks < t + n) (hp : p.due ∈ c.unscanned ∨ c.ticks ≤ p.due) :
    turn n (view n c p) = view n (c.step (.event .tick : Action Bytes)) p := by
  have hle := ticks_le hfits hp
  have hticks : (c.step (.event .tick : Action Bytes)).ticks = c.ticks + 1 := rfl
  rw [turn, view, view, hticks]
  dsimp only
  by_cases hnow : c.ticks % n = p.due % n
  · have hbefore : ¬ c.Late n p.due := by
      rintro ⟨t, ht, hmod⟩
      have := add_le_of_mod_eq (hmod.trans hnow.symm) (hfits t ht).1
      have := hlast t ht
      omega
    have hround : (p.due + 0 - c.ticks) % n = 0 := Nat.sub_mod_eq_zero_of_mod_eq hnow.symm
    rw [if_neg hbefore] at hle ⊢
    rw [if_pos (Clock.late_tick.mpr (.inl hnow)), if_pos hround]
    congr 1
    omega
  · have hround : (p.due + (if c.Late n p.due then n else 0)) % n = p.due % n := by
      split
      · exact Nat.add_mod_right _ _
      · rfl
    have hrem : ¬ (p.due + (if c.Late n p.due then n else 0) - c.ticks) % n = 0 := by
      intro hz
      have hmod := (Nat.modEq_iff_dvd' hle).mpr (Nat.dvd_of_mod_eq_zero hz)
      exact hnow (Eq.trans hmod hround)
    rw [if_neg hrem]
    simp only [Clock.late_tick, hnow, false_or]
    rfl

theorem Simulates.scanned_iff (h : Simulates s q) {p : Lib.LateScans.Task Bytes} (hp : p ∈ q.tasks)
    {t : Nat} (ht : t ∈ q.clock.unscanned) :
    Scanned s.wheel (slot n t) (view n q.clock p) ↔ p.due = t := by
  have hn := Nat.pos_of_neZero n
  have hbound := h.regular.fits t ht
  have hrem : slotOf s.wheel (view n q.clock p) = slot n t ↔ t % n = p.due % n := by
    rw [h.slotOf_view hp, slot_eq_iff, eq_comm]
  have hlate (hmod : t % n = p.due % n) : (view n q.clock p).rem = p.due + n - q.clock.ticks := by
    rw [view, if_pos ⟨t, ht, hmod⟩]
  constructor
  · rintro ⟨hslot, hcircle⟩
    have hmod := hrem.mp hslot
    rw [hlate hmod, Nat.div_eq_zero_iff_lt hn] at hcircle
    rcases h.regular.ahead p hp with hdue | hdue
    · exact h.regular.fits.eq_of_mod hdue ht hmod.symm
    · omega
  · rintro rfl
    refine ⟨hrem.mpr rfl, ?_⟩
    rw [hlate rfl, Nat.div_eq_zero_iff_lt hn]
    omega

theorem Simulates.pass_view (h : Simulates s q) {p : Lib.LateScans.Task Bytes} (hp : p ∈ q.tasks)
    {t : Nat} (ht : t ∈ q.clock.unscanned) :
    pass s.wheel (slot n t) (view n q.clock p) =
      view n (q.clock.step (.scan t : Action Bytes)) p := by
  have hslot := h.slotOf_view hp
  have hticks : (q.clock.step (.scan t : Action Bytes)).ticks = q.clock.ticks := rfl
  have hlate : (q.clock.step (.scan t : Action Bytes)).Late n p.due ↔
      ¬ t % n = p.due % n ∧ q.clock.Late n p.due :=
    Clock.late_scan h.regular.fits h.regular.nodup ht
  rw [pass, hslot, view, view, hticks]
  by_cases hmod : t % n = p.due % n
  · have hgone : ¬ (q.clock.step (.scan t : Action Bytes)).Late n p.due := fun hl =>
      (hlate.mp hl).1 hmod
    rw [if_pos ((slot_eq_iff _ _).mpr hmod.symm), if_pos ⟨t, ht, hmod⟩, if_neg hgone]
    dsimp only
    congr 1
    omega
  · rw [if_neg fun he => hmod ((slot_eq_iff _ _).mp he).symm]
    simp only [hlate, hmod, not_false_eq_true, true_and]

theorem addTask_currentPos {w w' : Wheel n} {t : TimeWheel.Task} (h : addTask w t = some w') :
    w'.currentPos = w.currentPos := by
  rw [addTask, TimeWheel.addTask, Option.map_eq_some_iff] at h
  obtain ⟨place, -, rfl⟩ := h
  dsimp only
  split
  · exact removeTask_currentPos _ _
  · rfl

/-- The ticks that an added task waits for are the ones of its delay, late scans or not. -/
theorem Simulates.view_added (h : Simulates s q) (key : Bytes) (delay : Nat) :
    view n q.clock ⟨q.next, key, q.clock.due n delay⟩ = ⟨q.next, key, delay⟩ := by
  have hrem : q.clock.due n delay + (if q.clock.Late n (q.clock.due n delay) then n else 0) -
      q.clock.ticks = delay := by
    by_cases hlate : q.clock.Late n (q.clock.ticks + delay)
    · have hround := (Clock.due_of_late h.regular.fits hlate).1
      have hstill : q.clock.Late n (q.clock.due n delay) := by
        obtain ⟨t, ht, hmod⟩ := hlate
        refine ⟨t, ht, hmod.trans ?_⟩
        rw [← hround, Nat.add_mod_right]
      rw [if_pos hstill]
      omega
    · have hdue : q.clock.due n delay = q.clock.ticks + delay := if_neg hlate
      rw [hdue, if_neg hlate]
      omega
  rw [view, hrem]

theorem Simulates.add (h : Simulates s q) {key : Bytes} {delay : Nat}
    (hreg : (q.step n seconds [] (.event (.add key delay))).Regular n) :
    ∃ w, addTask s.wheel ⟨delay, key⟩ = some w ∧
      Simulates { s with wheel := w } (q.step n seconds [] (.event (.add key delay))) := by
  obtain ⟨w, hadd, hw⟩ := h.wheel.add key (seconds delay)
  rw [addTask, ← addTask_seconds] at hadd
  refine ⟨w, hadd, ?_, h.ticks, (addTask_currentPos hadd).trans h.position, h.started, hreg⟩
  have hstate : (⟨q.next, q.tasks.map (view n q.clock)⟩ : State Bytes).add [] key (seconds delay) =
      ⟨q.next + 1, (q.step n seconds [] (.event (.add key delay))).tasks.map (view n q.clock)⟩ := by
    rw [State.add, Queue.step, List.map_append, List.filter_map, List.map_singleton, h.view_added]
    rfl
  rw [hstate] at hw
  exact hw

theorem Simulates.remove (h : Simulates s q) {key : Bytes} (hkey : key ≠ [])
    (hreg : (q.step n seconds [] (.event (.remove key))).Regular n) :
    Simulates { s with wheel := removeTask s.wheel key }
      (q.step n seconds [] (.event (.remove key))) := by
  have hw := h.wheel.remove hkey
  refine ⟨?_, h.ticks, (removeTask_currentPos _ _).trans h.position, h.started, hreg⟩
  rw [State.remove, List.filter_map] at hw
  exact hw

theorem Simulates.tick (h : Simulates s q)
    (hlast : ∀ t ∈ q.clock.unscanned, q.clock.ticks < t + n)
    (hreg : (q.step n seconds [] (.event .tick)).Regular n) :
    Simulates s.tickHandler (q.step n seconds [] (.event .tick)) := by
  refine ⟨?_, congrArg (· + 1) h.ticks, ?_, ?_, hreg⟩
  · have hw := h.wheel.turn
    rw [List.map_map] at hw
    have hview : q.tasks.map (ExpiryWheel.turn n ∘ view n q.clock) =
        q.tasks.map (view n (q.clock.step (.event .tick : Action Bytes))) :=
      List.map_congr_left fun p hp => turn_view h.regular.fits hlast (h.regular.ahead p hp)
    rw [hview] at hw
    exact hw
  · change (TimeWheel.tickHandler s.wheel).currentPos = slot n (q.clock.ticks + 1)
    rw [tickHandler_currentPos, h.position]
    exact slot_mod_add q.clock.ticks 1
  · change (s.ticks, s.wheel.currentPos) :: s.started = _
    rw [h.ticks, h.position, h.started]
    rfl

theorem lookup_started (ts : List Nat) {t : Nat} (ht : t ∈ ts) :
    (ts.map fun u => (u, slot n u)).lookup t = some (slot n t) := by
  induction ts with
  | nil => cases ht
  | cons u ts ih =>
      rw [List.map_cons, List.lookup_cons]
      by_cases hu : t = u
      · rw [hu, beq_self_eq_true]
      · rw [beq_false_of_ne hu]
        exact ih (List.mem_of_ne_of_mem hu ht)

theorem Simulates.scan (h : Simulates s q) {t : Nat} (ht : t ∈ q.clock.unscanned)
    (hreg : (q.step n seconds [] (.scan t)).Regular n) :
    s.started.lookup t = some (slot n t) ∧
      ∃ w ran, scanAndRunTask s.wheel (slot n t) = some (w, ran) ∧
        ran.map Element.id = q.scanned t ∧
        Simulates ⟨w, s.ticks, s.started.filter fun g => ¬ g.1 = t⟩
          (q.step n seconds [] (.scan t)) := by
  have hforgets (key : Bytes) (hkey : key ≠ []) : forgets key = true := decide_eq_true hkey
  obtain ⟨w, ran, hscan, hran, hpos, hw⟩ := h.wheel.scanAndRunTask hforgets (slot n t)
  refine ⟨h.started ▸ lookup_started _ ht, w, ran, hscan, ?_, ?_, h.ticks, hpos.trans h.position,
    ?_, hreg⟩
  · rw [hran, List.filter_map, List.map_map, Queue.scanned]
    have hfilter : q.tasks.filter
        ((fun p => decide (Scanned s.wheel (slot n t) p)) ∘ view n q.clock) =
        q.tasks.filter fun p => p.due = t := by
      apply List.filter_congr
      intro p hp
      rw [Function.comp_apply, decide_eq_decide]
      exact h.scanned_iff hp ht
    rw [hfilter]
    rfl
  · rw [List.filter_map, List.map_map] at hw
    have hfilter : q.tasks.filter
        ((fun p => decide (¬ Scanned s.wheel (slot n t) p)) ∘ view n q.clock) =
        q.tasks.filter fun p => ¬ p.due = t := by
      apply List.filter_congr
      intro p hp
      rw [Function.comp_apply, decide_eq_decide]
      exact not_congr (h.scanned_iff hp ht)
    have hview : (q.tasks.filter fun p => ¬ p.due = t).map
        (pass s.wheel (slot n t) ∘ view n q.clock) =
        (q.tasks.filter fun p => ¬ p.due = t).map
          (view n (q.clock.step (.scan t : Action Bytes))) :=
      List.map_congr_left fun p hp => h.pass_view (List.mem_filter.mp hp).1 ht
    rw [hfilter, hview] at hw
    exact hw
  · change s.started.filter _ = (q.clock.unscanned.erase t).map _
    rw [h.started, List.filter_map, h.regular.nodup.erase_eq_filter]
    congr 1
    apply List.filter_congr
    intro u _
    by_cases hu : u = t <;> simp [hu]

/-- Over any timely schedule the wheel runs what the abstract queue does. -/
theorem Simulates.run (h : Simulates s q) {as : List (Action Bytes)}
    (htimely : Timely n q.clock as) (hremove : Event.remove [] ∉ events as) :
    s.run as = some (log n seconds [] q as) := by
  have hn := Nat.pos_of_neZero n
  induction as generalizing s q with
  | nil => rfl
  | cons a as ih =>
      have hstep : (q.step n seconds [] a).Regular n ∧ Timely n (q.step n seconds [] a).clock as :=
        h.regular.step hn htimely
      obtain ⟨hreg, hrest⟩ := hstep
      cases a with
      | event e =>
          have htail : Event.remove [] ∉ events as := fun hm =>
            hremove (List.mem_cons_of_mem _ hm)
          cases e with
          | add key delay =>
              obtain ⟨w, hadd, hw⟩ := h.add hreg
              rw [Scans.run, hadd, Option.bind_some, ih hw hrest htail, log]
          | remove key =>
              have hkey : key ≠ [] := by
                rintro rfl
                exact hremove List.mem_cons_self
              rw [Scans.run, ih (h.remove hkey hreg) hrest htail, log]
          | tick => rw [Scans.run, ih (h.tick htimely.1 hreg) hrest htail, log]
      | scan t =>
          obtain ⟨hstarted, w, ran, hscan, hran, hw⟩ := h.scan htimely.1 hreg
          rw [Scans.run, hstarted, Option.bind_some, hscan, Option.bind_some, ih hw hrest hremove,
            Option.map_some, log, ← hran]

theorem run_eq_log {as : List (Action Bytes)} (h : Timely n .start as)
    (hremove : Event.remove [] ∉ events as) :
    (Scans.start n).run as = some (log n seconds [] .empty as) :=
  start_simulates.run h hremove

/-- The runs of late scans, and what they would be if each scan came right after its tick. -/
def ScansAlike (n : Nat) [NeZero n] (as : List (Action Bytes)) : Prop :=
  ∃ late soon, (Scans.start n).run as = some late ∧
    (Scans.start n).run (prompt 0 (events as)) = some soon ∧ RunsAlike as late soon

theorem scansAlike_iff (n : Nat) [NeZero n] (as : List (Action Bytes)) (h : Timely n .start as)
    (hremove : Event.remove [] ∉ events as) :
    ScansAlike n as ↔ Undisturbed n seconds [] as := by
  have hprompt : Timely n .start (prompt 0 (events as)) := timely_prompt 0 (events as)
  have hlate := run_eq_log h hremove
  have hsoon := run_eq_log hprompt (by rwa [events_prompt])
  have hiff : RunsAlike as (log n seconds [] .empty as)
      (log n seconds [] .empty (prompt 0 (events as))) ↔ Undisturbed n seconds [] as :=
    runsAlike_iff (Nat.pos_of_neZero n) h
  constructor
  · rintro ⟨late, soon, hl, hs, halike⟩
    rw [hlate, Option.some.injEq] at hl
    rw [hsoon, Option.some.injEq] at hs
    rw [← hl, ← hs] at halike
    exact hiff.mp halike
  · exact fun hquiet => ⟨_, _, hlate, hsoon, hiff.mpr hquiet⟩

def revolution : List (Action Bytes) :=
  [.event .tick, .event (.add (bytes "k") (3599 * second)), .scan 0]

theorem revolution_timely : Timely 3600 .start revolution ∧ Event.remove [] ∉ events revolution := by
  refine ⟨⟨?_, List.mem_singleton_self 0, rfl⟩, by decide⟩
  intro t ht
  cases ht

theorem scansAlike_iff_revolution : ScansAlike 3600 revolution ↔ Undisturbed 3600 seconds [] revolution :=
  scansAlike_iff 3600 revolution revolution_timely.1 revolution_timely.2

/-- The scan runs it at once. -/
theorem not_scansAlike_revolution : Timely 3600 .start revolution ∧
    Event.remove [] ∉ events revolution ∧ ¬ ScansAlike 3600 revolution := by
  refine ⟨revolution_timely.1, revolution_timely.2, ?_⟩
  rintro ⟨late, soon, hlate, -, halike⟩
  rw [run_eq_log revolution_timely.1 revolution_timely.2, Option.some.injEq] at hlate
  have hran : Ran late 0 0 := ⟨[0], hlate ▸ by decide, List.mem_singleton_self 0⟩
  exact (halike [.event .tick] (bytes "k") (3599 * second) [.scan 0] rfl 0).2
    (List.mem_singleton_self 0) hran

end Traitor.ExpiryWheel
