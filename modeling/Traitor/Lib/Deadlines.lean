import Mathlib.Data.List.Nodup
import Mathlib.Tactic.Common

namespace Traitor.Lib.Deadlines

variable {κ : Type} [DecidableEq κ]

inductive Event (κ : Type)
  | add (key : κ) (delay : Nat)
  | remove (key : κ)
  | tick
deriving DecidableEq

structure Pending (κ : Type) where
  id : Nat
  key : κ
  rem : Nat
deriving DecidableEq

/-- Delayed tasks in order of addition. A task is named by the number of tasks
added before it, and carries the ticks still to pass before the one that runs it. -/
structure State (κ : Type) where
  next : Nat
  pending : List (Pending κ)

def State.empty : State κ := ⟨0, []⟩

def Replaced (anon key : κ) (p : Pending κ) : Prop := p.key = key ∧ key ≠ anon

instance (anon key : κ) (p : Pending κ) : Decidable (Replaced anon key p) :=
  inferInstanceAs (Decidable (_ ∧ _))

/-- A task added under the key `anon` replaces nothing. -/
def State.add (anon : κ) (s : State κ) (key : κ) (delay : Nat) : State κ :=
  ⟨s.next + 1, s.pending.filter (fun p => ¬ Replaced anon key p) ++ [⟨s.next, key, delay⟩]⟩

def State.remove (s : State κ) (key : κ) : State κ :=
  ⟨s.next, s.pending.filter (fun p => ¬ p.key = key)⟩

def State.expired (s : State κ) : List Nat :=
  (s.pending.filter (fun p => p.rem = 0)).map Pending.id

def State.tick (s : State κ) : State κ :=
  ⟨s.next, (s.pending.filter (fun p => ¬ p.rem = 0)).map (fun p => { p with rem := p.rem - 1 })⟩

def trace (anon : κ) : State κ → List (Event κ) → List (List Nat)
  | _, [] => []
  | s, .tick :: es => s.expired :: trace anon s.tick es
  | s, .add key delay :: es => trace anon (s.add anon key delay) es
  | s, .remove key :: es => trace anon (s.remove key) es

def adds : List (Event κ) → Nat
  | [] => 0
  | .add _ _ :: es => adds es + 1
  | .remove _ :: es => adds es
  | .tick :: es => adds es

def ticks : List (Event κ) → Nat
  | [] => 0
  | .add _ _ :: es => ticks es
  | .remove _ :: es => ticks es
  | .tick :: es => ticks es + 1

/-- The events reach the tick that runs a task with `n` ticks to go before it,
and until then the task is neither removed nor replaced. -/
def survives (anon key : κ) : Nat → List (Event κ) → Bool
  | _, [] => false
  | 0, .tick :: _ => true
  | n + 1, .tick :: es => survives anon key n es
  | n, .remove key' :: es => if key' = key then false else survives anon key n es
  | n, .add key' _ :: es =>
      if key' = key ∧ key ≠ anon then false else survives anon key n es

/-- Each added task is run exactly once, at the tick its delay asks for, unless
it is removed or replaced before; then it is never run. -/
def RunsOnTime (anon : κ) (es : List (Event κ)) (runs : List (List Nat)) : Prop :=
  ∀ before key delay after, es = before ++ .add key delay :: after → ∀ t,
    (runs.getD t []).count (adds before) =
      if survives anon key delay after ∧ t = ticks before + delay then 1 else 0

structure State.Valid (s : State κ) : Prop where
  ids_lt : ∀ p ∈ s.pending, p.id < s.next
  ids_nodup : (s.pending.map Pending.id).Nodup

omit [DecidableEq κ] in
theorem State.empty_valid : (State.empty : State κ).Valid := ⟨by simp [empty], by simp [empty]⟩

theorem State.add_valid (anon : κ) {s : State κ} (h : s.Valid) (key : κ) (delay : Nat) :
    (s.add anon key delay).Valid := by
  have hsub : ∀ p ∈ s.pending.filter (fun p => ¬ Replaced anon key p), p.id < s.next :=
    fun p hp => h.ids_lt p (List.mem_filter.mp hp).1
  refine ⟨?_, ?_⟩
  · intro p hp
    rcases List.mem_append.mp hp with hp | hp
    · exact Nat.lt_succ_of_lt (hsub p hp)
    · rw [List.mem_singleton.mp hp]
      exact Nat.lt_succ_self _
  · rw [add, List.map_append, List.nodup_append]
    refine ⟨h.ids_nodup.sublist (List.filter_sublist.map _), by simp, ?_⟩
    intro i hi j hj
    obtain ⟨p, hp, rfl⟩ := List.mem_map.mp hi
    have hlt := hsub p hp
    simp only [List.map_cons, List.map_nil, List.mem_singleton] at hj
    omega

theorem State.remove_valid {s : State κ} (h : s.Valid) (key : κ) : (s.remove key).Valid :=
  ⟨fun p hp => h.ids_lt p (List.mem_filter.mp hp).1,
    h.ids_nodup.sublist (List.filter_sublist.map _)⟩

omit [DecidableEq κ] in
theorem State.tick_valid {s : State κ} (h : s.Valid) : s.tick.Valid := by
  refine ⟨?_, ?_⟩
  · intro p hp
    obtain ⟨q, hq, rfl⟩ := List.mem_map.mp hp
    exact h.ids_lt q (List.mem_filter.mp hq).1
  · have he : (s.tick.pending).map Pending.id =
        (s.pending.filter (fun p => ¬ p.rem = 0)).map Pending.id := by
      simp [tick, List.map_map, Function.comp_def]
    rw [he]
    exact h.ids_nodup.sublist (List.filter_sublist.map _)

omit [DecidableEq κ] in
theorem State.expired_count {s : State κ} (h : s.Valid) {p : Pending κ} (hp : p ∈ s.pending) :
    s.expired.count p.id = if p.rem = 0 then 1 else 0 := by
  have hnd : s.expired.Nodup := h.ids_nodup.sublist (List.filter_sublist.map _)
  by_cases hr : p.rem = 0
  · rw [if_pos hr]
    refine List.count_eq_one_of_mem hnd (List.mem_map.mpr ⟨p, ?_, rfl⟩)
    simp [List.mem_filter, hp, hr]
  · rw [if_neg hr, List.count_eq_zero]
    intro hm
    obtain ⟨q, hq, he⟩ := List.mem_map.mp hm
    obtain ⟨hq, hqr⟩ := List.mem_filter.mp hq
    have hqp : q = p := List.inj_on_of_nodup_map h.ids_nodup hq hp he
    subst q
    exact hr (by simpa using hqr)

/-- A name that no pending task carries and that is already used is never run. -/
theorem trace_count_gone (anon : κ) (es : List (Event κ)) {s : State κ} (i : Nat)
    (hi : i < s.next) (hgone : ∀ p ∈ s.pending, p.id ≠ i) (t : Nat) :
    ((trace anon s es).getD t []).count i = 0 := by
  induction es generalizing s t with
  | nil => simp [trace]
  | cons e es ih =>
      cases e with
      | add key delay =>
          refine ih (s := s.add anon key delay) (Nat.lt_succ_of_lt hi) ?_ t
          intro p hp
          rcases List.mem_append.mp hp with hp | hp
          · exact hgone p (List.mem_filter.mp hp).1
          · rw [List.mem_singleton.mp hp]
            exact (Nat.ne_of_lt hi).symm
      | remove key =>
          exact ih (s := s.remove key) hi (fun p hp => hgone p (List.mem_filter.mp hp).1) t
      | tick =>
          cases t with
          | zero =>
              simp only [trace, List.getD_cons_zero, List.count_eq_zero]
              intro hm
              obtain ⟨q, hq, he⟩ := List.mem_map.mp hm
              exact hgone q (List.mem_filter.mp hq).1 he
          | succ t =>
              refine ih (s := s.tick) hi ?_ t
              intro p hp
              obtain ⟨q, hq, rfl⟩ := List.mem_map.mp hp
              exact hgone q (List.mem_filter.mp hq).1

/-- A pending task is run by the tick its remaining ticks name, if it survives. -/
theorem trace_count_pending (anon : κ) (es : List (Event κ)) {s : State κ} (h : s.Valid)
    {p : Pending κ} (hp : p ∈ s.pending) (t : Nat) :
    ((trace anon s es).getD t []).count p.id =
      if survives anon p.key p.rem es ∧ t = p.rem then 1 else 0 := by
  induction es generalizing s p t with
  | nil => simp [trace, survives]
  | cons e es ih =>
      cases e with
      | add key delay =>
          have hv := State.add_valid anon h key delay
          by_cases hr : Replaced anon key p
          · have hgone : ∀ q ∈ (s.add anon key delay).pending, q.id ≠ p.id := by
              intro q hq he
              rcases List.mem_append.mp hq with hq | hq
              · obtain ⟨hq, hqr⟩ := List.mem_filter.mp hq
                rw [List.inj_on_of_nodup_map h.ids_nodup hq hp he] at hqr
                exact absurd hr (by simpa using hqr)
              · have hlt := h.ids_lt p hp
                rw [List.mem_singleton.mp hq] at he
                exact absurd he (Nat.ne_of_lt hlt).symm
            have hs : survives anon p.key p.rem (.add key delay :: es) = false := by
              simp [survives, hr.1.symm, hr.1 ▸ hr.2]
            rw [trace, trace_count_gone anon es p.id (Nat.lt_succ_of_lt (h.ids_lt p hp)) hgone, hs]
            simp
          · have hp' : p ∈ (s.add anon key delay).pending :=
              List.mem_append_left _ (List.mem_filter.mpr ⟨hp, by simpa using hr⟩)
            have hs : survives anon p.key p.rem (.add key delay :: es) =
                survives anon p.key p.rem es := by
              have hn : ¬ (key = p.key ∧ p.key ≠ anon) := fun hk => hr ⟨hk.1.symm, hk.1 ▸ hk.2⟩
              cases hrem : p.rem <;> simp only [survives, if_neg hn]
            rw [trace, ih hv hp', hs]
      | remove key =>
          have hv := State.remove_valid h key
          by_cases hk : p.key = key
          · have hgone : ∀ q ∈ (s.remove key).pending, q.id ≠ p.id := by
              intro q hq he
              obtain ⟨hq, hqk⟩ := List.mem_filter.mp hq
              rw [List.inj_on_of_nodup_map h.ids_nodup hq hp he] at hqk
              exact absurd hk (by simpa using hqk)
            have hs : survives anon p.key p.rem (.remove key :: es) = false := by
              cases hrem : p.rem <;> simp [survives, hk]
            rw [trace, trace_count_gone anon es (s := s.remove key) p.id (h.ids_lt p hp) hgone, hs]
            simp
          · have hp' : p ∈ (s.remove key).pending :=
              List.mem_filter.mpr ⟨hp, by simpa using hk⟩
            have hs : survives anon p.key p.rem (.remove key :: es) =
                survives anon p.key p.rem es := by
              cases hrem : p.rem <;> simp [survives, Ne.symm hk]
            rw [trace, ih hv hp', hs]
      | tick =>
          have hv := State.tick_valid h
          cases hrem : p.rem with
          | zero =>
              have hgone : ∀ q ∈ s.tick.pending, q.id ≠ p.id := by
                intro q hq he
                obtain ⟨r, hr, rfl⟩ := List.mem_map.mp hq
                obtain ⟨hr, hrr⟩ := List.mem_filter.mp hr
                rw [List.inj_on_of_nodup_map h.ids_nodup hr hp he] at hrr
                simp [hrem] at hrr
              cases t with
              | zero => simp [trace, survives, State.expired_count h hp, hrem]
              | succ t =>
                  rw [trace, List.getD_cons_succ,
                    trace_count_gone anon es (s := s.tick) p.id (h.ids_lt p hp) hgone]
                  simp
          | succ n =>
              have hp' : (⟨p.id, p.key, n⟩ : Pending κ) ∈ s.tick.pending :=
                List.mem_map.mpr ⟨p, List.mem_filter.mpr ⟨hp, by simp [hrem]⟩, by simp [hrem]⟩
              cases t with
              | zero => simp [trace, State.expired_count h hp, hrem]
              | succ t =>
                  have := ih hv hp' t
                  rw [trace, List.getD_cons_succ, this]
                  simp [survives]

/-- A task that is still to be added is not run before it is. -/
theorem trace_count_fresh (anon : κ) (before : List (Event κ)) {s : State κ} (h : s.Valid)
    (key : κ) (delay : Nat) (after : List (Event κ)) (t : Nat) :
    ((trace anon s (before ++ .add key delay :: after)).getD t []).count (s.next + adds before) =
      if survives anon key delay after ∧ t = ticks before + delay then 1 else 0 := by
  induction before generalizing s t with
  | nil =>
      have hp : (⟨s.next, key, delay⟩ : Pending κ) ∈ (s.add anon key delay).pending :=
        List.mem_append_right _ (List.mem_singleton.mpr rfl)
      simpa [trace, adds, ticks] using
        trace_count_pending anon after (State.add_valid anon h key delay) hp t
  | cons e es ih =>
      cases e with
      | add key' delay' =>
          have := ih (State.add_valid anon h key' delay') t
          rw [List.cons_append, trace, adds, ticks, ← this]
          congr 1
          simp only [State.add]
          omega
      | remove key' => exact ih (State.remove_valid h key') t
      | tick =>
          cases t with
          | zero =>
              have hz : s.expired.count (s.next + adds (.tick :: es)) = 0 := by
                rw [List.count_eq_zero]
                intro hm
                obtain ⟨q, hq, he⟩ := List.mem_map.mp hm
                have hlt := h.ids_lt q (List.mem_filter.mp hq).1
                omega
              have hne : ¬ 0 = ticks (.tick :: es : List (Event κ)) + delay := by
                simp only [ticks]; omega
              rw [List.cons_append, trace, List.getD_cons_zero, hz, if_neg (fun hc => hne hc.2)]
          | succ t =>
              have := ih (State.tick_valid h) t
              rw [List.cons_append, trace, List.getD_cons_succ, adds, ticks]
              rw [show s.tick.next = s.next from rfl] at this
              rw [this]
              congr 1
              simp only [eq_iff_iff, and_congr_right_iff]
              intro _
              omega

/-- Over any sequence of events the abstract queue runs every task on time. -/
theorem trace_runsOnTime (anon : κ) (es : List (Event κ)) :
    RunsOnTime anon es (trace anon State.empty es) := by
  intro before key delay after he t
  subst he
  simpa [State.empty] using
    trace_count_fresh anon before (@State.empty_valid κ) key delay after t

end Traitor.Lib.Deadlines
