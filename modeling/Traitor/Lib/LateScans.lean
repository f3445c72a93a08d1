import Mathlib.Data.List.Nodup
import Traitor.Lib.Deadlines

namespace Traitor.Lib.LateScans

open Deadlines

variable {κ : Type}

/-- A tick only moves the position, and the scan of its slot is an action of its own. -/
inductive Action (κ : Type)
  | event (e : Event κ)
  | scan (t : Nat)
deriving DecidableEq

def events : List (Action κ) → List (Event κ)
  | [] => []
  | .event e :: as => e :: events as
  | .scan _ :: as => events as

structure Clock where
  ticks : Nat
  unscanned : List Nat

def Clock.start : Clock := ⟨0, []⟩

def Clock.step (c : Clock) : Action κ → Clock
  | .event .tick => ⟨c.ticks + 1, c.ticks :: c.unscanned⟩
  | .event (.add _ _) => c
  | .event (.remove _) => c
  | .scan t => ⟨c.ticks, c.unscanned.erase t⟩

def Clock.run (c : Clock) (as : List (Action κ)) : Clock := as.foldl Clock.step c

/-- Every tick is scanned, once and before the next tick of the same of `n` slots. -/
def Timely (n : Nat) : Clock → List (Action κ) → Prop
  | c, [] => c.unscanned = []
  | c, .event .tick :: as =>
      (∀ t ∈ c.unscanned, c.ticks < t + n) ∧ Timely n (c.step (.event .tick : Action κ)) as
  | c, .event (.add _ _) :: as => Timely n c as
  | c, .event (.remove _) :: as => Timely n c as
  | c, .scan t :: as => t ∈ c.unscanned ∧ Timely n (c.step (.scan t : Action κ)) as

def Clock.Late (n : Nat) (c : Clock) (due : Nat) : Prop := ∃ t ∈ c.unscanned, t % n = due % n

instance (n : Nat) (c : Clock) (due : Nat) : Decidable (c.Late n due) :=
  inferInstanceAs (Decidable (∃ t ∈ _, _))

/-- The tick whose scan runs a task. A scan that is still to come takes it for one that waits
for a revolution less. -/
def Clock.due (n : Nat) (c : Clock) (delay : Nat) : Nat :=
  if c.Late n (c.ticks + delay) then c.ticks + delay - n else c.ticks + delay

structure Task (κ : Type) where
  id : Nat
  key : κ
  due : Nat
deriving DecidableEq

structure Queue (κ : Type) where
  clock : Clock
  next : Nat
  tasks : List (Task κ)

def Queue.empty : Queue κ := ⟨.start, 0, []⟩

variable [DecidableEq κ]

/-- A delay is a number of units of time, of which `wait` makes a number of ticks. -/
def Queue.step (n : Nat) (wait : Nat → Nat) (anon : κ) (q : Queue κ) (a : Action κ) : Queue κ :=
  match a with
  | .event (.add key delay) =>
      ⟨q.clock, q.next + 1, q.tasks.filter (fun p => ¬ (p.key = key ∧ key ≠ anon)) ++
        [⟨q.next, key, q.clock.due n (wait delay)⟩]⟩
  | .event (.remove key) => ⟨q.clock, q.next, q.tasks.filter fun p => ¬ p.key = key⟩
  | .event .tick => { q with clock := q.clock.step a }
  | .scan t => ⟨q.clock.step a, q.next, q.tasks.filter fun p => ¬ p.due = t⟩

def Queue.scanned (q : Queue κ) (t : Nat) : List Nat :=
  (q.tasks.filter fun p => p.due = t).map Task.id

def log (n : Nat) (wait : Nat → Nat) (anon : κ) : Queue κ → List (Action κ) → List (Nat × List Nat)
  | _, [] => []
  | q, .scan t :: as => (t, q.scanned t) :: log n wait anon (q.step n wait anon (.scan t)) as
  | q, .event e :: as => log n wait anon (q.step n wait anon (.event e)) as

def Ran (runs : List (Nat × List Nat)) (t id : Nat) : Prop := ∃ ids, (t, ids) ∈ runs ∧ id ∈ ids

/-- The actions reach the scan of a tick, and until then a task with the key is neither
removed nor replaced. -/
def lasts (anon key : κ) (t : Nat) : List (Action κ) → Bool
  | [] => false
  | .scan t' :: as => if t' = t then true else lasts anon key t as
  | .event .tick :: as => lasts anon key t as
  | .event (.remove key') :: as => if key' = key then false else lasts anon key t as
  | .event (.add key' _) :: as =>
      if key' = key ∧ key ≠ anon then false else lasts anon key t as

structure Queue.Valid (q : Queue κ) : Prop where
  ids_lt : ∀ p ∈ q.tasks, p.id < q.next
  ids_nodup : (q.tasks.map Task.id).Nodup

variable {n : Nat} {wait : Nat → Nat} {anon : κ} {q : Queue κ}

omit [DecidableEq κ] in
theorem Queue.empty_valid : (Queue.empty : Queue κ).Valid := ⟨by simp [empty], by simp [empty]⟩

theorem Queue.step_valid (h : q.Valid) (a : Action κ) : (q.step n wait anon a).Valid := by
  have hfilter (f : Task κ → Bool) : ∀ p ∈ q.tasks.filter f, p.id < q.next :=
    fun p hp => h.ids_lt p (List.mem_filter.mp hp).1
  have hnodup (f : Task κ → Bool) : ((q.tasks.filter f).map Task.id).Nodup :=
    h.ids_nodup.sublist (List.filter_sublist.map _)
  cases a with
  | event e =>
      cases e with
      | add key delay =>
          refine ⟨fun p hp => ?_, ?_⟩
          · rcases List.mem_append.mp hp with hp | hp
            · exact Nat.lt_succ_of_lt (hfilter _ p hp)
            · rw [List.mem_singleton.mp hp]
              exact Nat.lt_succ_self _
          · rw [step, List.map_append, List.nodup_append]
            refine ⟨hnodup _, by simp, fun i hi j hj hij => ?_⟩
            obtain ⟨p, hp, rfl⟩ := List.mem_map.mp hi
            have hlt := hfilter _ p hp
            have hj : j = q.next := by simpa using hj
            omega
      | remove key => exact ⟨hfilter _, hnodup _⟩
      | tick => exact ⟨h.ids_lt, h.ids_nodup⟩
  | scan t => exact ⟨hfilter _, hnodup _⟩

theorem Queue.next_le (a : Action κ) : q.next ≤ (q.step n wait anon a).next := by
  cases a with
  | event e =>
      cases e with
      | add key delay => exact Nat.le_succ _
      | remove key => exact Nat.le_refl _
      | tick => exact Nat.le_refl _
  | scan t => exact Nat.le_refl _

omit [DecidableEq κ] in
theorem Queue.eq_of_id (h : q.Valid) {p p' : Task κ} (hp : p ∈ q.tasks) (hp' : p' ∈ q.tasks)
    (hid : p.id = p'.id) : p = p' := List.inj_on_of_nodup_map h.ids_nodup hp hp' hid

/-- What a step leaves of the tasks, besides the one that it adds. -/
theorem Queue.mem_step {a : Action κ} {p : Task κ} (hp : p ∈ (q.step n wait anon a).tasks)
    (hid : p.id < q.next) : p ∈ q.tasks := by
  cases a with
  | event e =>
      cases e with
      | add key delay =>
          rcases List.mem_append.mp hp with hp | hp
          · exact (List.mem_filter.mp hp).1
          · rw [List.mem_singleton.mp hp] at hid
            exact absurd hid (Nat.lt_irrefl _)
      | remove key => exact (List.mem_filter.mp hp).1
      | tick => exact hp
  | scan t => exact (List.mem_filter.mp hp).1

theorem ran_cons {runs : List (Nat × List Nat)} {ids : List Nat} {t t' i : Nat} :
    Ran ((t', ids) :: runs) t i ↔ t = t' ∧ i ∈ ids ∨ Ran runs t i := by
  constructor
  · rintro ⟨ids', hmem, hin⟩
    rcases List.mem_cons.mp hmem with heq | hmem
    · obtain ⟨rfl, rfl⟩ := Prod.mk.inj heq
      exact .inl ⟨rfl, hin⟩
    · exact .inr ⟨ids', hmem, hin⟩
  · rintro (⟨rfl, hin⟩ | ⟨ids', hmem, hin⟩)
    · exact ⟨_, List.mem_cons_self, hin⟩
    · exact ⟨ids', List.mem_cons_of_mem _ hmem, hin⟩

omit [DecidableEq κ] in
theorem Queue.mem_scanned (h : q.Valid) {p : Task κ} (hp : p ∈ q.tasks) (t : Nat) : p.id ∈ q.scanned t ↔ p.due = t := by
  rw [Queue.scanned, List.mem_map]
  constructor
  · rintro ⟨p', hp', hid⟩
    obtain ⟨hmem, hdue⟩ := List.mem_filter.mp hp'
    rw [Queue.eq_of_id h hmem hp hid] at hdue
    exact of_decide_eq_true hdue
  · intro hdue
    exact ⟨p, List.mem_filter.mpr ⟨hp, decide_eq_true hdue⟩, rfl⟩

/-- A task that has left is not run any more. -/
theorem not_ran_of_gone (as : List (Action κ)) {i : Nat} (hi : i < q.next)
    (hgone : ∀ p ∈ q.tasks, p.id ≠ i) (t : Nat) : ¬ Ran (log n wait anon q as) t i := by
  induction as generalizing q with
  | nil =>
      rintro ⟨ids, hmem, -⟩
      cases hmem
  | cons a as ih =>
      have hnext : i < (q.step n wait anon a).next := Nat.lt_of_lt_of_le hi (Queue.next_le a)
      have hstill : ∀ p ∈ (q.step n wait anon a).tasks, p.id ≠ i := fun p hp hid =>
        hgone p (Queue.mem_step hp (hid ▸ hi)) hid
      cases a with
      | event e => exact ih hnext hstill
      | scan t' =>
          rw [log, ran_cons]
          rintro (⟨-, hin⟩ | hran)
          · obtain ⟨p, hp, hid⟩ := List.mem_map.mp hin
            exact hgone p (List.mem_filter.mp hp).1 hid
          · exact ih hnext hstill hran

/-- A task that is there is run by the scan of the tick it is due at, if it lasts. -/
theorem ran_iff_of_mem (as : List (Action κ)) (h : q.Valid) {p : Task κ} (hp : p ∈ q.tasks)
    (t : Nat) : Ran (log n wait anon q as) t p.id ↔ lasts anon p.key p.due as = true ∧ t = p.due := by
  induction as generalizing q with
  | nil =>
      refine iff_of_false ?_ (by simp [lasts])
      rintro ⟨ids, hmem, -⟩
      cases hmem
  | cons a as ih =>
      have hgone (hleft : p ∉ (q.step n wait anon a).tasks) :
          ∀ p' ∈ (q.step n wait anon a).tasks, p'.id ≠ p.id := fun p' hp' hid =>
        hleft (Queue.eq_of_id h (Queue.mem_step hp' (hid ▸ h.ids_lt p hp)) hp hid ▸ hp')
      have hnext : p.id < (q.step n wait anon a).next := Nat.lt_of_lt_of_le (h.ids_lt p hp) (Queue.next_le a)
      have hvalid : (q.step n wait anon a).Valid := Queue.step_valid h a
      have hstays := ih hvalid
      cases a with
      | event e =>
          cases e with
          | add key delay =>
              rw [log, lasts]
              by_cases hr : key = p.key ∧ p.key ≠ anon
              · rw [if_pos hr]
                refine iff_of_false (not_ran_of_gone as hnext (hgone fun hmem => ?_) t) (by simp)
                rcases List.mem_append.mp hmem with hmem | hmem
                · have hkeep := (List.mem_filter.mp hmem).2
                  simp [hr.1, hr.2] at hkeep
                · have hid := congrArg Task.id (List.mem_singleton.mp hmem)
                  exact absurd hid (Nat.ne_of_lt (h.ids_lt p hp))
              · rw [if_neg hr]
                refine hstays (List.mem_append_left _ (List.mem_filter.mpr ⟨hp, ?_⟩))
                rw [decide_eq_true_eq]
                exact fun hk => hr ⟨hk.1.symm, hk.1 ▸ hk.2⟩
          | remove key =>
              rw [log, lasts]
              by_cases hk : key = p.key
              · rw [if_pos hk]
                refine iff_of_false (not_ran_of_gone as hnext (hgone fun hmem => ?_) t) (by simp)
                have hkeep := (List.mem_filter.mp hmem).2
                simp [hk] at hkeep
              · rw [if_neg hk]
                refine hstays (List.mem_filter.mpr ⟨hp, ?_⟩)
                rw [decide_eq_true_eq]
                exact fun he => hk he.symm
          | tick => exact hstays hp
      | scan t' =>
          rw [log, lasts, ran_cons, Queue.mem_scanned h hp]
          by_cases hdue : t' = p.due
          · have hleft : p ∉ (q.step n wait anon (.scan t')).tasks := fun hmem => by
              have hkeep := (List.mem_filter.mp hmem).2
              simp [hdue] at hkeep
            rw [if_pos hdue, or_iff_left (not_ran_of_gone as hnext (hgone hleft) t)]
            simp [hdue]
          · rw [if_neg hdue, or_iff_right fun hh => hdue hh.2.symm]
            exact hstays (List.mem_filter.mpr ⟨hp, decide_eq_true fun he => hdue he.symm⟩)

theorem Queue.step_clock (a : Action κ) : (q.step n wait anon a).clock = q.clock.step a := by
  cases a with
  | event e => cases e <;> rfl
  | scan t => rfl

omit [DecidableEq κ] in
theorem Clock.run_ticks (c : Clock) (as : List (Action κ)) :
    (c.run as).ticks = c.ticks + Deadlines.ticks (events as) := by
  induction as generalizing c with
  | nil => rfl
  | cons a as ih =>
      have hrest := ih (c.step a)
      rw [Clock.run] at hrest ⊢
      rw [List.foldl_cons, hrest]
      cases a with
      | event e =>
          cases e with
          | add key delay => rfl
          | remove key => rfl
          | tick => simp only [Clock.step, events, Deadlines.ticks]; omega
      | scan t => rfl

/-- A task that is still to be added is run by the scan of the tick it is then due at, if it
lasts. -/
theorem ran_fresh_iff (before after : List (Action κ)) (h : q.Valid) (key : κ) (delay t : Nat) :
    Ran (log n wait anon q (before ++ .event (.add key delay) :: after)) t
        (q.next + adds (events before)) ↔
      lasts anon key ((q.clock.run before).due n (wait delay)) after = true ∧
        t = (q.clock.run before).due n (wait delay) := by
  induction before generalizing q with
  | nil =>
      have hp : (⟨q.next, key, q.clock.due n (wait delay)⟩ : Task κ) ∈
          (q.step n wait anon (.event (.add key delay))).tasks :=
        List.mem_append_right _ (List.mem_singleton_self _)
      exact ran_iff_of_mem after (Queue.step_valid h _) hp t
  | cons a before ih =>
      have hvalid : (q.step n wait anon a).Valid := Queue.step_valid h a
      have hrest := ih hvalid
      rw [Queue.step_clock] at hrest
      cases a with
      | event e =>
          cases e with
          | add key' delay' =>
              have hid : (q.step n wait anon (.event (.add key' delay'))).next + adds (events before) =
                  q.next + adds (events (.event (.add key' delay') :: before)) := by
                simp only [Queue.step, events, adds]
                omega
              rw [hid] at hrest
              exact hrest
          | remove key' => exact hrest
          | tick => exact hrest
      | scan t' =>
          have hnot : q.next + adds (events before) ∉ q.scanned t' := by
            intro hin
            obtain ⟨p, hp, hid⟩ := List.mem_map.mp hin
            have hlt := h.ids_lt p (List.mem_filter.mp hp).1
            omega
          refine Iff.trans ?_ hrest
          rw [List.cons_append, log, ran_cons, events]
          exact or_iff_right fun hin => hnot hin.2

theorem survives_remove (anon key : κ) (m : Nat) (key' : κ) (es : List (Event κ)) :
    survives anon key m (.remove key' :: es) =
      if key' = key then false else survives anon key m es := by
  cases m <;> rfl

theorem survives_add (anon key : κ) (m : Nat) (key' : κ) (delay : Nat) (es : List (Event κ)) :
    survives anon key m (.add key' delay :: es) =
      if key' = key ∧ key ≠ anon then false else survives anon key m es := by
  cases m <;> rfl

def Clock.Fits (n : Nat) (c : Clock) : Prop := ∀ t ∈ c.unscanned, t < c.ticks ∧ c.ticks ≤ t + n

variable {c : Clock}

omit [DecidableEq κ] in
theorem Clock.Fits.tick (hn : 0 < n) (h : c.Fits n) (hlast : ∀ t ∈ c.unscanned, c.ticks < t + n) :
    (c.step (.event .tick : Action κ)).Fits n := by
  intro t ht
  rcases List.mem_cons.mp ht with rfl | ht
  · exact ⟨Nat.lt_succ_self _, Nat.add_le_add_left hn _⟩
  · exact ⟨Nat.lt_succ_of_lt (h t ht).1, hlast t ht⟩

omit [DecidableEq κ] in
theorem Clock.Fits.scan (h : c.Fits n) (t : Nat) : (c.step (.scan t : Action κ)).Fits n :=
  fun t' ht => h t' (List.mem_of_mem_erase ht)

omit [DecidableEq κ] in
theorem Timely.split {before after : List (Action κ)} (hn : 0 < n) (hfits : c.Fits n)
    (h : Timely n c (before ++ after)) : Timely n (c.run before) after ∧ (c.run before).Fits n := by
  induction before generalizing c with
  | nil => exact ⟨h, hfits⟩
  | cons a before ih =>
      cases a with
      | event e =>
          cases e with
          | add key delay => exact ih hfits h
          | remove key => exact ih hfits h
          | tick => exact ih (hfits.tick hn h.1) h.2
      | scan t => exact ih (hfits.scan t) h.2

/-- The scan of a tick that is still to come comes after the tick. -/
theorem survives_of_lasts {key : κ} {due : Nat} {as : List (Action κ)} (hn : 0 < n)
    (hfits : c.Fits n) (h : Timely n c as) (hdue : c.ticks ≤ due)
    (hlasts : lasts anon key due as = true) :
    survives anon key (due - c.ticks) (events as) = true := by
  induction as generalizing c with
  | nil => cases hlasts
  | cons a as ih =>
      cases a with
      | event e =>
          cases e with
          | add key' delay =>
              rw [lasts] at hlasts
              rw [events, survives_add]
              split at hlasts
              · cases hlasts
              · next hk =>
                  rw [if_neg hk]
                  exact ih hfits h hdue hlasts
          | remove key' =>
              rw [lasts] at hlasts
              rw [events, survives_remove]
              split at hlasts
              · cases hlasts
              · next hk =>
                  rw [if_neg hk]
                  exact ih hfits h hdue hlasts
          | tick =>
              rw [events]
              cases hrem : due - c.ticks with
              | zero => rfl
              | succ m =>
                  have hrest := ih (hfits.tick hn h.1) h.2 (by simp only [Clock.step]; omega) hlasts
                  have hm : due - (c.step (.event .tick : Action κ)).ticks = m := by
                    simp only [Clock.step]
                    omega
                  rw [hm] at hrest
                  exact hrest
      | scan t =>
          rw [lasts] at hlasts
          split at hlasts
          · next ht =>
              have hlt := (hfits t h.1).1
              omega
          · have hrest := ih (hfits.scan t) h.2 hdue hlasts
            exact hrest

/-- A scan comes before the next tick of its slot. -/
theorem lasts_of_survives {key : κ} {due : Nat} {as : List (Action κ)} (hn : 0 < n)
    (h : Timely n c as) (hdue : due ∈ c.unscanned ∨ c.ticks ≤ due)
    (hsurvives : survives anon key (due + n - c.ticks) (events as) = true) :
    lasts anon key due as = true := by
  induction as generalizing c with
  | nil => cases hm : due + n - c.ticks <;> simp [events, survives] at hsurvives
  | cons a as ih =>
      cases a with
      | event e =>
          cases e with
          | add key' delay =>
              rw [events, survives_add] at hsurvives
              rw [lasts]
              split at hsurvives
              · cases hsurvives
              · next hk =>
                  rw [if_neg hk]
                  exact ih h hdue hsurvives
          | remove key' =>
              rw [events, survives_remove] at hsurvives
              rw [lasts]
              split at hsurvives
              · cases hsurvives
              · next hk =>
                  rw [if_neg hk]
                  exact ih h hdue hsurvives
          | tick =>
              rw [events] at hsurvives
              have hlate : c.ticks < due + n := by
                rcases hdue with hdue | hdue
                · exact h.1 due hdue
                · omega
              obtain ⟨m, hm⟩ : ∃ m, due + n - c.ticks = m + 1 :=
                ⟨due + n - c.ticks - 1, by omega⟩
              rw [hm] at hsurvives
              apply ih h.2
              · rcases hdue with hdue | hdue
                · exact .inl (List.mem_cons_of_mem _ hdue)
                · by_cases hnow : due = c.ticks
                  · exact .inl (hnow ▸ List.mem_cons_self)
                  · exact .inr (by simp only [Clock.step]; omega)
              · have hm' : due + n - (c.step (.event .tick : Action κ)).ticks = m := by
                  simp only [Clock.step]
                  omega
                rw [hm']
                exact hsurvives
      | scan t =>
          rw [lasts]
          split
          · rfl
          · next ht =>
              refine ih h.2 ?_ hsurvives
              exact hdue.imp_left fun hmem => (List.mem_erase_of_ne fun he => ht he.symm).mpr hmem

/-- Two ticks of the same slot are a revolution apart. -/
theorem add_le_of_mod_eq {t u : Nat} (hmod : t % n = u % n) (hlt : t < u) : t + n ≤ u := by
  have hdvd := Nat.dvd_of_mod_eq_zero (Nat.sub_mod_eq_zero_of_mod_eq hmod.symm)
  have := Nat.le_of_dvd (by omega) hdvd
  omega

/-- Every scan right after its tick, the first of them being tick `t`. -/
def prompt : Nat → List (Event κ) → List (Action κ)
  | _, [] => []
  | t, .tick :: es => .event .tick :: .scan t :: prompt (t + 1) es
  | t, .add key delay :: es => .event (.add key delay) :: prompt t es
  | t, .remove key :: es => .event (.remove key) :: prompt t es

/-- Every added task is run by the same ticks as with prompt scans, and by none whose scan was
still to come when it was added. -/
def RunsAlike (as : List (Action κ)) (late soon : List (Nat × List Nat)) : Prop :=
  ∀ before key delay after, as = before ++ .event (.add key delay) :: after → ∀ t,
    (Ran late t (adds (events before)) ↔ Ran soon t (adds (events before))) ∧
      (t ∈ (Clock.start.run before).unscanned → ¬ Ran late t (adds (events before)))

/-- A task that is added while the scan of its slot is still to come does not last until the
scan a revolution before its tick, and any other that is there at its tick still is at the
scan. -/
def Undisturbed (n : Nat) (wait : Nat → Nat) (anon : κ) (as : List (Action κ)) : Prop :=
  ∀ before key delay after, as = before ++ .event (.add key delay) :: after →
    if (Clock.start.run before).Late n ((Clock.start.run before).ticks + wait delay) then
      lasts anon key ((Clock.start.run before).ticks + wait delay - n) after = false
    else survives anon key (wait delay) (events after) = true →
      lasts anon key ((Clock.start.run before).ticks + wait delay) after = true

omit [DecidableEq κ] in
theorem events_append (as bs : List (Action κ)) : events (as ++ bs) = events as ++ events bs := by
  induction as with
  | nil => rfl
  | cons a as ih =>
      cases a with
      | event e => rw [List.cons_append, events, ih, events, List.cons_append]
      | scan t => rw [List.cons_append, events, ih, events]

omit [DecidableEq κ] in
theorem prompt_append (t : Nat) (es fs : List (Event κ)) :
    prompt t (es ++ fs) = prompt t es ++ prompt (t + ticks es) fs := by
  induction es generalizing t with
  | nil => rfl
  | cons e es ih =>
      cases e with
      | add key delay => rw [List.cons_append, prompt, ih, prompt, ticks, List.cons_append]
      | remove key => rw [List.cons_append, prompt, ih, prompt, ticks, List.cons_append]
      | tick =>
          have hticks : t + 1 + ticks es = t + (ticks es + 1) := by omega
          rw [List.cons_append, prompt, ih, prompt, ticks, List.cons_append, List.cons_append, hticks]

omit [DecidableEq κ] in
theorem events_prompt (t : Nat) (es : List (Event κ)) : events (prompt t es) = es := by
  induction es generalizing t with
  | nil => rfl
  | cons e es ih =>
      cases e with
      | add key delay => rw [prompt, events, ih]
      | remove key => rw [prompt, events, ih]
      | tick => rw [prompt, events, events, ih]

omit [DecidableEq κ] in
theorem Clock.run_prompt (t : Nat) (es : List (Event κ)) :
    (⟨t, []⟩ : Clock).run (prompt t es) = ⟨t + Deadlines.ticks es, []⟩ := by
  induction es generalizing t with
  | nil => rfl
  | cons e es ih =>
      cases e with
      | add key delay => exact ih t
      | remove key => exact ih t
      | tick =>
          have hscanned : (⟨t, []⟩ : Clock).run (prompt t (.tick :: es)) =
              (⟨t + 1, []⟩ : Clock).run (prompt (t + 1) es) := by
            simp only [prompt, Clock.run, List.foldl_cons, Clock.step, List.erase_cons_head]
          rw [hscanned, ih, Deadlines.ticks, Nat.add_assoc, Nat.add_comm 1]

omit [DecidableEq κ] in
theorem timely_prompt (t : Nat) (es : List (Event κ)) : Timely n ⟨t, []⟩ (prompt t es) := by
  induction es generalizing t with
  | nil => rfl
  | cons e es ih =>
      cases e with
      | add key delay => exact ih t
      | remove key => exact ih t
      | tick =>
          have herase : (Clock.step ⟨t, []⟩ (.event .tick : Action κ)).step (.scan t : Action κ) =
              ⟨t + 1, []⟩ := by
            simp only [Clock.step, List.erase_cons_head]
          rw [prompt, Timely, Timely, herase]
          exact ⟨by simp, List.mem_singleton_self t, ih (t + 1)⟩

theorem lasts_prompt (key : κ) (m t : Nat) (es : List (Event κ)) :
    lasts anon key (t + m) (prompt t es) = survives anon key m es := by
  induction es generalizing m t with
  | nil => cases m <;> rfl
  | cons e es ih =>
      cases e with
      | add key' delay => rw [prompt, lasts, survives_add, ih]
      | remove key' => rw [prompt, lasts, survives_remove, ih]
      | tick =>
          rw [prompt, lasts, lasts]
          cases m with
          | zero =>
              rw [if_pos (Nat.add_zero t).symm]
              rfl
          | succ m =>
              have hnext : t + (m + 1) = t + 1 + m := by omega
              rw [if_neg (by omega), hnext, ih]
              rfl

/-- A prompt scan runs a task when as many ticks have passed as it waits for. -/
theorem ran_prompt_iff (before after : List (Event κ)) (key : κ) (delay t : Nat) :
    Ran (log n wait anon .empty (prompt 0 (before ++ .add key delay :: after))) t (adds before) ↔
      survives anon key (wait delay) after = true ∧ t = ticks before + wait delay := by
  have hran : Ran (log n wait anon .empty (prompt 0 before ++
        .event (.add key delay) :: prompt (ticks before) after)) t
        ((Queue.empty : Queue κ).next + adds (events (prompt 0 before))) ↔ _ :=
    ran_fresh_iff _ _ Queue.empty_valid key delay t
  have hclock : (Queue.empty : Queue κ).clock.run (prompt 0 before) = ⟨ticks before, []⟩ := by
    have hrun := Clock.run_prompt 0 before
    rwa [Nat.zero_add] at hrun
  have hdue : (⟨ticks before, []⟩ : Clock).due n (wait delay) = ticks before + wait delay := by
    rw [Clock.due, if_neg]
    rintro ⟨u, hu, -⟩
    cases hu
  rw [hclock, hdue, lasts_prompt, events_prompt, show (Queue.empty : Queue κ).next = 0 from rfl,
    Nat.zero_add] at hran
  rw [prompt_append, Nat.zero_add]
  exact hran

theorem Clock.due_of_late (hfits : c.Fits n) {delay : Nat} (hlate : c.Late n (c.ticks + delay)) :
    c.due n delay + n = c.ticks + delay ∧ (c.due n delay ∈ c.unscanned ∨ c.ticks ≤ c.due n delay) := by
  rw [Clock.due, if_pos hlate]
  obtain ⟨t, ht, hmod⟩ := hlate
  have hbound := hfits t ht
  have hle : t + n ≤ c.ticks + delay := add_le_of_mod_eq hmod (by omega)
  refine ⟨by omega, ?_⟩
  by_cases hpassed : c.ticks ≤ c.ticks + delay - n
  · exact .inr hpassed
  · left
    by_contra hne
    have hsame : t % n = (c.ticks + delay - n) % n := by
      rw [hmod, ← Nat.mod_eq_sub_mod (by omega)]
    have hlt : t < c.ticks + delay - n :=
      Nat.lt_of_le_of_ne (by omega) fun he => hne (he ▸ ht)
    have := add_le_of_mod_eq hsame hlt
    omega

/-- A task waits for the scan of a tick that is still to come, and no scan is to come twice. -/
structure Queue.Regular (n : Nat) (q : Queue κ) : Prop where
  fits : q.clock.Fits n
  nodup : q.clock.unscanned.Nodup
  ahead : ∀ p ∈ q.tasks, p.due ∈ q.clock.unscanned ∨ q.clock.ticks ≤ p.due

omit [DecidableEq κ] in
theorem Queue.empty_regular : (Queue.empty : Queue κ).Regular n where
  fits t ht := by cases ht
  nodup := List.nodup_nil
  ahead p hp := by cases hp

theorem Clock.due_ahead (hfits : c.Fits n) (delay : Nat) :
    c.due n delay ∈ c.unscanned ∨ c.ticks ≤ c.due n delay := by
  by_cases hlate : c.Late n (c.ticks + delay)
  · exact (Clock.due_of_late hfits hlate).2
  · rw [Clock.due, if_neg hlate]
    exact .inr (Nat.le_add_right _ _)

theorem Queue.Regular.step {a : Action κ} {as : List (Action κ)} (hn : 0 < n) (h : q.Regular n)
    (htimely : Timely n q.clock (a :: as)) :
    (q.step n wait anon a).Regular n ∧ Timely n (q.step n wait anon a).clock as := by
  cases a with
  | event e =>
      cases e with
      | add key delay =>
          refine ⟨⟨h.fits, h.nodup, fun p hp => ?_⟩, htimely⟩
          rcases List.mem_append.mp hp with hp | hp
          · exact h.ahead p (List.mem_filter.mp hp).1
          · rw [List.mem_singleton.mp hp]
            exact Clock.due_ahead h.fits _
      | remove key =>
          exact ⟨⟨h.fits, h.nodup, fun p hp => h.ahead p (List.mem_filter.mp hp).1⟩, htimely⟩
      | tick =>
          have hfresh : q.clock.ticks ∉ q.clock.unscanned := fun hmem =>
            Nat.lt_irrefl _ (h.fits _ hmem).1
          have hfits : (q.clock.step (.event .tick : Action κ)).Fits n := h.fits.tick hn htimely.1
          refine ⟨⟨hfits, List.nodup_cons.mpr ⟨hfresh, h.nodup⟩, fun p hp => ?_⟩,
            htimely.2⟩
          rcases h.ahead p hp with hdue | hdue
          · exact .inl (List.mem_cons_of_mem _ hdue)
          · by_cases hnow : p.due = q.clock.ticks
            · exact .inl (hnow ▸ List.mem_cons_self)
            · exact .inr (Nat.lt_of_le_of_ne hdue (Ne.symm hnow))
  | scan t =>
      have hfits : (q.clock.step (.scan t : Action κ)).Fits n := h.fits.scan t
      refine ⟨⟨hfits, h.nodup.erase t, fun p hp => ?_⟩, htimely.2⟩
      obtain ⟨hp, hne⟩ := List.mem_filter.mp hp
      rw [decide_eq_true_eq] at hne
      exact (h.ahead p hp).imp_left fun hmem => (List.mem_erase_of_ne hne).mpr hmem

/-- The ticks of one revolution are told apart by their slots. -/
theorem Clock.Fits.eq_of_mod {t u : Nat} (h : c.Fits n) (ht : t ∈ c.unscanned) (hu : u ∈ c.unscanned)
    (hmod : t % n = u % n) : t = u := by
  have hbt := h t ht
  have hbu := h u hu
  rcases Nat.lt_trichotomy t u with hlt | heq | hlt
  · have := add_le_of_mod_eq hmod hlt
    omega
  · exact heq
  · have := add_le_of_mod_eq hmod.symm hlt
    omega

omit [DecidableEq κ] in
theorem Clock.late_tick {due : Nat} : (c.step (.event .tick : Action κ)).Late n due ↔
    c.ticks % n = due % n ∨ c.Late n due := by
  constructor
  · rintro ⟨t, ht, hmod⟩
    rcases List.mem_cons.mp ht with rfl | ht
    · exact .inl hmod
    · exact .inr ⟨t, ht, hmod⟩
  · rintro (hmod | ⟨t, ht, hmod⟩)
    · exact ⟨c.ticks, List.mem_cons_self, hmod⟩
    · exact ⟨t, List.mem_cons_of_mem _ ht, hmod⟩

omit [DecidableEq κ] in
theorem Clock.late_scan {t due : Nat} (hfits : c.Fits n) (hnodup : c.unscanned.Nodup)
    (ht : t ∈ c.unscanned) : (c.step (.scan t : Action κ)).Late n due ↔
      ¬ t % n = due % n ∧ c.Late n due := by
  constructor
  · rintro ⟨u, hu, hmod⟩
    have hmem := List.mem_of_mem_erase hu
    refine ⟨fun hsame => ?_, u, hmem, hmod⟩
    have hu' : t ∈ c.unscanned.erase t := hfits.eq_of_mod hmem ht (hmod.trans hsame.symm) ▸ hu
    exact hnodup.not_mem_erase hu'
  · rintro ⟨hother, u, hu, hmod⟩
    have hne : u ≠ t := fun he => hother (he ▸ hmod)
    exact ⟨u, (List.mem_erase_of_ne hne).mpr hu, hmod⟩

theorem runsAlike_iff (hn : 0 < n) {as : List (Action κ)} (h : Timely n .start as) :
    RunsAlike as (log n wait anon .empty as) (log n wait anon .empty (prompt 0 (events as))) ↔
      Undisturbed n wait anon as := by
  refine forall₄_congr fun before key delay after => forall_congr' fun heq => ?_
  subst heq
  have hstart : Clock.start.Fits n := fun t ht => by cases ht
  obtain ⟨hafter, hfits⟩ := h.split hn hstart
  have hlate (t : Nat) :
      Ran (log n wait anon .empty (before ++ .event (.add key delay) :: after)) t
        (adds (events before)) ↔
      lasts anon key ((Clock.start.run before).due n (wait delay)) after = true ∧
        t = (Clock.start.run before).due n (wait delay) := by
    have hran : Ran (log n wait anon .empty (before ++ .event (.add key delay) :: after)) t
        ((Queue.empty : Queue κ).next + adds (events before)) ↔ _ :=
      ran_fresh_iff before after Queue.empty_valid key delay t
    rwa [show (Queue.empty : Queue κ).next = 0 from rfl, Nat.zero_add] at hran
  have hsoon (t : Nat) : Ran (log n wait anon .empty
        (prompt 0 (events (before ++ .event (.add key delay) :: after)))) t (adds (events before)) ↔
      survives anon key (wait delay) (events after) = true ∧
        t = (Clock.start.run before).ticks + wait delay := by
    rw [events_append, events, ran_prompt_iff, Clock.run_ticks,
      show Clock.start.ticks = 0 from rfl, Nat.zero_add]
  simp only [hlate, hsoon]
  generalize Clock.start.run before = c at hafter hfits
  have hrest : Timely n c after := hafter
  by_cases hl : c.Late n (c.ticks + wait delay)
  · obtain ⟨hround, hdue⟩ := Clock.due_of_late hfits hl
    have hval : c.ticks + wait delay - n = c.due n (wait delay) := by omega
    rw [if_pos hl, hval]
    have hearly : survives anon key (wait delay) (events after) = true →
        lasts anon key (c.due n (wait delay)) after = true := by
      intro hsurvives
      apply lasts_of_survives hn hrest hdue
      rwa [show c.due n (wait delay) + n - c.ticks = wait delay by omega]
    constructor
    · intro hiff
      by_contra hlasts
      rw [Bool.not_eq_false] at hlasts
      have heq := ((hiff (c.due n (wait delay))).1.mp ⟨hlasts, rfl⟩).2
      omega
    · intro hno t'
      rw [hno]
      refine ⟨iff_of_false (by simp) fun hs => ?_, by simp⟩
      rw [hearly hs.1] at hno
      cases hno
  · have hdue : c.due n (wait delay) = c.ticks + wait delay := if_neg hl
    rw [if_neg hl, hdue]
    have hthere : lasts anon key (c.ticks + wait delay) after = true →
        survives anon key (wait delay) (events after) = true := by
      intro hlasts
      have hs := survives_of_lasts hn hfits hrest (by omega) hlasts
      rwa [Nat.add_sub_cancel_left] at hs
    constructor
    · intro hiff hs
      exact ((hiff (c.ticks + wait delay)).1.mpr ⟨hs, rfl⟩).1
    · intro hlasts t'
      refine ⟨and_congr_left fun _ => ⟨hthere, hlasts⟩, fun hpending hran => ?_⟩
      have := (hfits t' hpending).1
      omega

end Traitor.Lib.LateScans
