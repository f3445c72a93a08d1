import Traitor.ActiveExpiry

namespace Traitor.ActiveExpiry

open Lib.Deadlines TimeWheel ExpiryWheel Database

variable {σ : Type} {n : Nat} [NeZero n] {s s' : Server σ n} {q : State Bytes} {i j : Nat}
  {key k : Bytes} {x : Int} {id r : Nat}

def ticksIn : List (Action σ) → Nat
  | [] => 0
  | .tick _ :: as => ticksIn as + 1
  | _ :: as => ticksIn as

def Untouched (i : Nat) (key : Bytes) (as : List (Action σ)) : Prop :=
  ∀ a ∈ as, a.target ≠ some (i, key)

/-- Of `k` ticks none is missing up to two intervals past an instant. -/
def Swept (start : Int) (k : Nat) (x : Int) : Prop := ∀ m, instant start m ≤ x + 2 * second → m < k

/-- The key is gone whenever the wheel has performed all ticks up to two intervals past the
expiry time. -/
def Reclaims (start : Int) (s : Server σ n) (i : Nat) (now : Int) (key : Bytes) (x : Int)
    (after : List (Action σ)) : Prop :=
  ∀ as rest, after = as ++ rest → ∃ s', s.run start (.expire i now key x :: as) = some s' ∧
    (Swept start s'.ticks x →
      (s'.dbs i).data.lookup key = none ∧ (s'.dbs i).ttlMap.lookup key = none)

def waiting (w : Wheel n) (key : Bytes) : Option (Nat × Nat) :=
  (w.locationMap key).bind fun loc =>
    ((w.slots loc.slotIndex).find? fun e => e.id = loc.elem).map fun e =>
      (e.id, n * e.circle + (loc.slotIndex + n - w.currentPos) % n)

/-- The task that is left to remove the key, and the ticks before the one that runs it: the new
one, or the one of an earlier expiry time when the new time is past. -/
def armed (s : Server σ n) (i : Nat) (now : Int) (key : Bytes) (x : Int) : Option (Nat × Nat) :=
  if Schedule.sub x now < 0 then
    (waiting s.wheel (genExpireTask key)).filter fun t => s.jobs t.1 = (i, key)
  else some (s.wheel.nextId, seconds (Schedule.sub x now).toNat)

/-- No other database cancels or replaces the task, and when it runs the clock is past the
expiry time. -/
def Fires (start : Int) (key : Bytes) (x : Int) (id : Nat) :
    Nat → Server σ n → List (Action σ) → Prop
  | _, _, [] => False
  | 0, s, .tick lag :: _ => x < instant start s.ticks + lag id
  | r + 1, s, .tick lag :: as =>
      ∃ s', s.step start (.tick lag) = some s' ∧ Fires start key x id r s' as
  | r, s, a :: as =>
      (∀ j, a.target = some (j, key) → a.releases s = false) ∧
        ∃ s', s.step start a = some s' ∧ Fires start key x id r s' as

def Reclaimable (start : Int) (s : Server σ n) (i : Nat) (now : Int) (key : Bytes) (x : Int)
    (after : List (Action σ)) : Prop :=
  ∃ id r s', armed s i now key x = some (id, r) ∧ instant start (s.ticks + r) ≤ x + 2 * second ∧
    s.step start (.expire i now key x) = some s' ∧ Fires start key x id r s' after

theorem waiting_iff {w : Wheel n} (h : Represents w q) (hkey : key ≠ []) :
    waiting w key = some (id, r) ↔ (⟨id, key, r⟩ : Pending Bytes) ∈ q.pending := by
  have hn := Nat.pos_of_neZero n
  have hfound (p : Pending Bytes) (hp : p ∈ q.pending) (hk : p.key = key) :
      waiting w key = some (p.id, p.rem) := by
    have hloc := (h.located key hkey ⟨slotOf w p, p.id⟩).mpr ⟨p, hp, hk, rfl⟩
    have hfind : (w.slots (slotOf w p)).find? (fun e => e.id = p.id) = some (element n p) := by
      rw [h.slots, List.find?_map]
      have hfirst : (q.pending.filter fun p' => slotOf w p' = slotOf w p).find?
          ((fun e : Element => decide (e.id = p.id)) ∘ element n) = some p := by
        rw [List.find?_eq_some_iff_append]
        obtain ⟨pre, post, hsplit⟩ := List.append_of_mem
          (List.mem_filter.mpr ⟨hp, decide_eq_true rfl⟩ :
            p ∈ q.pending.filter fun p' => slotOf w p' = slotOf w p)
        refine ⟨decide_eq_true rfl, pre, post, hsplit, fun p' hp' => ?_⟩
        have hnodup : ((q.pending.filter fun p' => slotOf w p' = slotOf w p).map Pending.id).Nodup :=
          h.valid.ids_nodup.sublist (List.filter_sublist.map _)
        rw [hsplit, List.map_append, List.nodup_append] at hnodup
        have hne := hnodup.2.2 p'.id (List.mem_map_of_mem hp') p.id List.mem_cons_self
        simp only [Function.comp_apply, element, Bool.not_eq_true']
        exact decide_eq_false hne
      rw [hfirst]
      rfl
    rw [waiting, hloc, Option.bind_some, hfind, Option.map_some]
    have hslot : (slotOf w p).val = (w.currentPos + p.rem) % n := rfl
    have hround : ((w.currentPos + p.rem) % n + n - w.currentPos) % n = p.rem % n := by
      have hlt := w.currentPos.isLt
      have hcongr : ((w.currentPos.val + p.rem) % n + (n - w.currentPos)) % n =
          (w.currentPos + p.rem + (n - w.currentPos)) % n := Nat.mod_add_mod _ _ _
      have hleft : (w.currentPos.val + p.rem) % n + n - w.currentPos =
          (w.currentPos.val + p.rem) % n + (n - w.currentPos) := by omega
      have hright : w.currentPos.val + p.rem + (n - w.currentPos) = p.rem + n := by omega
      rw [hleft, hcongr, hright, Nat.add_mod_right]
    have hrem : n * (p.rem / n) + p.rem % n = p.rem := Nat.div_add_mod _ _
    simp only [element, hslot, hround, hrem]
  constructor
  · intro hw
    cases hl : w.locationMap key with
    | none =>
        rw [waiting, hl] at hw
        cases hw
    | some loc =>
        obtain ⟨p, hp, hk, -⟩ := (h.located key hkey loc).mp hl
        rw [hfound p hp hk, Option.some.injEq, Prod.mk.injEq] at hw
        obtain ⟨rfl, rfl⟩ := hw
        exact hk ▸ hp
  · exact fun hp => hfound _ hp rfl

omit [NeZero n] in
theorem target_eq_none {a : Action σ} (h : a.target = none) : ∃ lag, a = .tick lag := by
  cases a with
  | tick lag => exact ⟨lag, rfl⟩
  | expire i now key expireTime => cases h
  | persist i key => cases h
  | remove i key => cases h
  | put i key entity => cases h
  | access i now key => cases h

omit [NeZero n] in
theorem ticksIn_cons {a : Action σ} {t : Nat × Bytes} (h : a.target = some t) (as : List (Action σ)) :
    ticksIn (a :: as) = ticksIn as := by
  cases a with
  | tick lag => cases h
  | expire i now key expireTime => rfl
  | persist i key => rfl
  | remove i key => rfl
  | put i key entity => rfl
  | access i now key => rfl

theorem fires_cons {start : Int} {a : Action σ} {t : Nat × Bytes} (h : a.target = some t)
    (as : List (Action σ)) : Fires start key x id r s (a :: as) ↔
      (∀ j, a.target = some (j, key) → a.releases s = false) ∧
        ∃ s', s.step start a = some s' ∧ Fires start key x id r s' as := by
  cases a with
  | tick lag => cases h
  | expire i now key expireTime => cases r <;> rfl
  | persist i key => cases r <;> rfl
  | remove i key => cases r <;> rfl
  | put i key entity => cases r <;> rfl
  | access i now key => cases r <;> rfl

theorem run_cons {start : Int} {a : Action σ} {s₁ s₂ : Server σ n} {as : List (Action σ)}
    (hstep : s.step start a = some s₁) (hrun : s₁.run start as = some s₂) : s.run start (a :: as) = some s₂ := by
  rw [Server.run, hstep, Option.bind_some, hrun]

/-- An action that does not release the job leaves it to the rest whether it fires. -/
theorem fires_kept {start : Int} {a : Action σ} {t : Nat × Bytes} {s₁ : Server σ n} (ha : a.target = some t)
    (hkept : ∀ j, a.target = some (j, key) → a.releases s = false) (hstep : s.step start a = some s₁)
    (as : List (Action σ)) : Fires start key x id r s (a :: as) ↔ Fires start key x id r s₁ as := by
  rw [fires_cons ha, hstep]
  constructor
  · rintro ⟨-, s', hs', hf⟩
    rwa [Option.some.inj hs']
  · intro hf
    exact ⟨hkept, s₁, rfl, hf⟩

theorem fires_tick {start : Int} {lag : Nat → Nat} {s₁ : Server σ n} (hstep : s.step start (.tick lag) = some s₁)
    (as : List (Action σ)) : Fires start key x id (r + 1) s (.tick lag :: as) ↔ Fires start key x id r s₁ as := by
  rw [Fires, hstep]
  constructor
  · rintro ⟨s', hs', hf⟩
    rwa [Option.some.inj hs']
  · intro hf
    exact ⟨s₁, rfl, hf⟩

theorem Sound.next (h : Sound s q) (start : Int) (a : Action σ) :
    ∃ s' q', s.step start a = some s' ∧ Sound s' q' := by
  cases ha : a.target with
  | some t =>
      obtain ⟨s', q', hstep, hsound, -⟩ := h.step start (j := t.1) (k := t.2) ha
      exact ⟨s', q', hstep, hsound⟩
  | none =>
      obtain ⟨lag, rfl⟩ := target_eq_none ha
      obtain ⟨s₁, hstep, hsound, -⟩ := h.tick start lag
      have hcallbacks (now : Nat → Int) (ran : List Nat) (s : Server σ n) (q : State Bytes)
          (h : Sound s q) : ∃ q', Sound (s.callbacks now ran) q' := by
        induction ran generalizing s q with
        | nil => exact ⟨q, h⟩
        | cons id ran ih =>
            obtain ⟨s', q', hstep, hsound, -⟩ := h.step 0
              (a := .access (s.jobs id).1 (now id) (s.jobs id).2) rfl
            rw [step_access, Option.some.injEq] at hstep
            subst hstep
            exact ih _ q' hsound
      obtain ⟨q', hq'⟩ := hcallbacks _ _ _ _ hsound
      exact ⟨_, q', hstep, hq'⟩

theorem Sound.run (h : Sound s q) (start : Int) (as : List (Action σ)) :
    ∃ s' q', s.run start as = some s' ∧ Sound s' q' := by
  induction as generalizing s q with
  | nil => exact ⟨s, q, rfl, h⟩
  | cons a as ih =>
      obtain ⟨s₁, q₁, hstep, h₁⟩ := h.next start a
      obtain ⟨s₂, q₂, hrun, h₂⟩ := ih h₁
      exact ⟨s₂, q₂, run_cons hstep hrun, h₂⟩

/-- What every action and every tick keeps is kept by a run that leaves the key alone. -/
theorem run_of {P : Server σ n → State Bytes → Prop} {start : Int}
    (hstep : ∀ {s q a j k}, P s q → a.target = some (j, k) → (j, k) ≠ (i, key) →
      ∃ s' q', s.step start a = some s' ∧ s'.ticks = s.ticks ∧ P s' q')
    (htick : ∀ {s q} lag, P s q →
      ∃ s' q', s.step start (.tick lag) = some s' ∧ s'.ticks = s.ticks + 1 ∧ P s' q')
    (h : P s q) {as : List (Action σ)} (has : Untouched i key as) :
    ∃ s' q', s.run start as = some s' ∧ s'.ticks = s.ticks + ticksIn as ∧ P s' q' := by
  induction as generalizing s q with
  | nil => exact ⟨s, q, rfl, rfl, h⟩
  | cons a as ih =>
      have htail : Untouched i key as := fun b hb => has b (List.mem_cons_of_mem _ hb)
      cases ha : a.target with
      | some t =>
          have hother : (t.1, t.2) ≠ (i, key) := fun he => has a List.mem_cons_self (he ▸ ha)
          obtain ⟨s₁, q₁, hstep, hticks, h₁⟩ := hstep h (j := t.1) (k := t.2) ha hother
          obtain ⟨s₂, q₂, hrun, hcount, h₂⟩ := ih h₁ htail
          refine ⟨s₂, q₂, run_cons hstep hrun, ?_, h₂⟩
          rw [hcount, hticks, ticksIn_cons ha]
      | none =>
          obtain ⟨lag, rfl⟩ := target_eq_none ha
          obtain ⟨s₁, q₁, hstep, hticks, h₁⟩ := htick lag h
          obtain ⟨s₂, q₂, hrun, hcount, h₂⟩ := ih h₁ htail
          refine ⟨s₂, q₂, run_cons hstep hrun, ?_, h₂⟩
          rw [hcount, hticks, ticksIn]
          omega

theorem Lost.run (h : Lost s q i key x) (start : Int) {as : List (Action σ)}
    (has : Untouched i key as) : ∃ s' q', s.run start as = some s' ∧
      s'.ticks = s.ticks + ticksIn as ∧ Lost s' q' i key x :=
  run_of (fun h ha hother => h.step start ha hother) (fun lag h => h.tick start lag) h has

theorem Gone.run (h : Gone s q i key) (start : Int) {as : List (Action σ)}
    (has : Untouched i key as) : ∃ s' q', s.run start as = some s' ∧
      s'.ticks = s.ticks + ticksIn as ∧ Gone s' q' i key :=
  run_of (fun h ha hother => h.step start ha hother) (fun lag h => h.tick start lag) h has

/-- A key with a task is gone once the task has run, if it fires, and is there else. -/
theorem Tracked.run (h : Tracked s q i key x id r) (start : Int) {as rest : List (Action σ)}
    (has : Untouched i key (as ++ rest)) : ∃ s' q', s.run start as = some s' ∧
      s'.ticks = s.ticks + ticksIn as ∧
      (Fires start key x id r s (as ++ rest) ∧ s.ticks + r < s'.ticks ∧ Gone s' q' i key ∨
        ¬ (Fires start key x id r s (as ++ rest) ∧ s.ticks + r < s'.ticks) ∧
          (s'.dbs i).ttlMap.lookup key = some x) := by
  induction as generalizing s q r with
  | nil => exact ⟨s, q, rfl, rfl, .inr ⟨fun hlt => by omega, h.ttl⟩⟩
  | cons a as ih =>
      have htail : Untouched i key (as ++ rest) := fun b hb => has b (List.mem_cons_of_mem _ hb)
      have hprefix : Untouched i key as := fun b hb => htail b (List.mem_append_left _ hb)
      cases ha : a.target with
      | some t =>
          have hother : t ≠ (i, key) := fun he => has a List.mem_cons_self (he ▸ ha)
          rw [List.cons_append, ticksIn_cons ha]
          by_cases hreleases : t.2 = key ∧ a.releases s = true
          · obtain ⟨hkey, hreleases⟩ := hreleases
            have ht : a.target = some (t.1, key) := hkey ▸ ha
            obtain ⟨s₁, q₁, hstep, hticks, h₁⟩ := h.release start ht (hkey ▸ hother) hreleases
            obtain ⟨s₂, q₂, hrun, hcount, h₂⟩ := h₁.run start hprefix
            refine ⟨s₂, q₂, run_cons hstep hrun, by rw [hcount, hticks],
              .inr ⟨?_, h₂.ttl⟩⟩
            rintro ⟨hfires, -⟩
            rw [((fires_cons ha _).mp hfires).1 t.1 ht] at hreleases
            cases hreleases
          · obtain ⟨s₁, q₁, hstep, hticks, h₁⟩ :=
              h.step start (j := t.1) (k := t.2) ha hother hreleases
            obtain ⟨s₂, q₂, hrun, hcount, h₂⟩ := ih h₁ htail
            refine ⟨s₂, q₂, run_cons hstep hrun, by rw [hcount, hticks], ?_⟩
            have hkept : ∀ j, a.target = some (j, key) → a.releases s = false := by
              intro j hj
              rw [ha, Option.some.injEq] at hj
              rw [← Bool.not_eq_true]
              exact fun hr => hreleases ⟨by rw [hj], hr⟩
            rw [fires_kept ha hkept hstep, ← hticks]
            exact h₂
      | none =>
          obtain ⟨lag, rfl⟩ := target_eq_none ha
          cases r with
          | zero =>
              obtain ⟨s₁, q₁, hstep, hticks, ⟨hlate, h₁⟩ | ⟨hlate, h₁⟩⟩ := h.fire start lag
              · obtain ⟨s₂, q₂, hrun, hcount, h₂⟩ := h₁.run start hprefix
                refine ⟨s₂, q₂, run_cons hstep hrun, ?_,
                  .inl ⟨hlate, by omega, h₂⟩⟩
                rw [hcount, hticks, ticksIn]
                omega
              · obtain ⟨s₂, q₂, hrun, hcount, h₂⟩ := h₁.run start hprefix
                refine ⟨s₂, q₂, run_cons hstep hrun, ?_,
                  .inr ⟨fun hf => hlate hf.1, h₂.ttl⟩⟩
                rw [hcount, hticks, ticksIn]
                omega
          | succ r =>
              obtain ⟨s₁, q₁, hstep, hticks, h₁⟩ := h.tick start lag
              obtain ⟨s₂, q₂, hrun, hcount, h₂⟩ := ih h₁ htail
              have hround : s.ticks + (r + 1) = s₁.ticks + r := by omega
              refine ⟨s₂, q₂, run_cons hstep hrun, ?_, ?_⟩
              · rw [hcount, hticks, ticksIn]
                omega
              · rw [List.cons_append, fires_tick hstep, hround]
                exact h₂

/-- A run passes every number of ticks on its way. -/
theorem exists_ticksIn (as : List (Action σ)) {m : Nat} (hm : m ≤ ticksIn as) :
    ∃ before rest, as = before ++ rest ∧ ticksIn before = m := by
  induction as generalizing m with
  | nil => exact ⟨[], [], rfl, (Nat.le_zero.mp hm).symm⟩
  | cons a as ih =>
      cases ha : a.target with
      | some t =>
          rw [ticksIn_cons ha] at hm
          obtain ⟨before, rest, rfl, rfl⟩ := ih hm
          exact ⟨a :: before, rest, rfl, ticksIn_cons ha _⟩
      | none =>
          obtain ⟨lag, rfl⟩ := target_eq_none ha
          cases m with
          | zero => exact ⟨[], _, rfl, rfl⟩
          | succ m =>
              obtain ⟨before, rest, rfl, rfl⟩ := ih (Nat.le_of_succ_le_succ hm)
              exact ⟨_ :: before, rest, rfl, rfl⟩

theorem instant_mono (start : Int) {k m : Nat} (h : k ≤ m) : instant start k ≤ instant start m := by
  rw [instant, instant]
  have hcast : (k : Int) ≤ m := Int.ofNat_le.mpr h
  have hmul := Int.mul_le_mul_of_nonneg_right (Int.add_le_add_right hcast 1) (Int.natCast_nonneg second)
  omega

omit [NeZero n] in
/-- A new task runs in time, when the clock is read after the tick before. -/
theorem instant_armed_le {start now : Int} (hnow : instant start s.ticks - second ≤ now)
    (hdelay : 0 ≤ Schedule.sub x now) :
    instant start (s.ticks + seconds (Schedule.sub x now).toNat) ≤ x + 2 * second := by
  have hsub : ((Schedule.sub x now).toNat : Int) ≤ x - now := by
    rw [Schedule.sub] at hdelay ⊢
    omega
  have hround := seconds_le (Schedule.sub x now).toNat
  have hsplit := Nat.div_add_mod (Schedule.sub x now).toNat second
  simp only [instant, second] at hnow hround hsplit ⊢
  omega

/-- What an expiry time leaves behind: a task, or none. -/
theorem Sound.expire (h : Sound s q) (start : Int) (i : Nat) (now : Int) (key : Bytes) (x : Int) :
    ∃ s' q', s.step start (.expire i now key x) = some s' ∧ s'.ticks = s.ticks ∧
      ((∃ id r, armed s i now key x = some (id, r) ∧ Tracked s' q' i key x id r) ∨
        armed s i now key x = none ∧ Lost s' q' i key x) := by
  have httl : ((s.modify i (·.expire key x)).dbs i).ttlMap.lookup key = some x := by
    rw [Server.modify]
    dsimp only
    rw [Function.update_self]
    exact Finmap.lookup_insert _
  rw [armed, Server.step, Server.expire, Server.exeAt, Server.addJob]
  by_cases hdelay : Schedule.sub x now < 0
  · rw [if_pos hdelay, if_pos hdelay]
    refine ⟨_, q, rfl, rfl, ?_⟩
    have hmodified := h.modify i (·.expire key x)
    cases hw : (waiting s.wheel (genExpireTask key)).filter fun t => s.jobs t.1 = (i, key) with
    | some t =>
        obtain ⟨hwaits, howner⟩ := Option.filter_eq_some_iff.mp hw
        have hmem := (waiting_iff h.wheel (genExpireTask_ne_nil key)).mp hwaits
        exact .inl ⟨t.1, t.2, rfl, hmodified, hmem, of_decide_eq_true howner, httl⟩
    | none =>
        refine .inr ⟨rfl, hmodified, fun p hp howner => ?_, httl⟩
        have hname := h.jobs p hp
        have howner' : s.jobs p.id = (i, key) := howner
        rw [howner'] at hname
        have hwaits : waiting s.wheel (genExpireTask key) = some (p.id, p.rem) :=
          (waiting_iff h.wheel (genExpireTask_ne_nil key)).mpr (hname ▸ hp)
        rw [hwaits, Option.filter_some, if_pos (decide_eq_true howner')] at hw
        cases hw
  · rw [if_neg hdelay, if_neg hdelay]
    obtain ⟨w, hadd, hw⟩ := (h.modify i (·.expire key x)).addJob (Schedule.sub x now).toNat i key
    rw [hadd]
    refine ⟨_, _, rfl, rfl, .inl ⟨_, _, rfl, hw, ?_, Function.update_self _ _ _, httl⟩⟩
    rw [h.wheel.nextId]
    exact List.mem_append_right _ (List.mem_singleton_self _)

theorem reclaims_of {start : Int} (h : Sound s q) {now : Int} {after : List (Action σ)}
    (hafter : Untouched i key after) (hcan : Reclaimable start s i now key x after) :
    Reclaims start s i now key x after := by
  obtain ⟨id, r, s', harmed, hin, hstep, hfires⟩ := hcan
  obtain ⟨s₁, q₁, hstep₁, hticks, hleft⟩ := h.expire start i now key x
  obtain rfl := Option.some.inj (hstep.symm.trans hstep₁)
  rcases hleft with ⟨id', r', harmed', htracked⟩ | ⟨hnone, -⟩
  · rw [harmed, Option.some.injEq, Prod.mk.injEq] at harmed'
    obtain ⟨rfl, rfl⟩ := harmed'
    rintro as rest rfl
    obtain ⟨s₂, q₂, hrun, -, ⟨-, -, hgone⟩ | ⟨hnot, -⟩⟩ := htracked.run start hafter
    · exact ⟨s₂, run_cons hstep hrun, fun _ => ⟨hgone.data, hgone.ttl⟩⟩
    · refine ⟨s₂, run_cons hstep hrun, fun hswept => ?_⟩
      exact absurd ⟨hfires, hticks ▸ hswept _ hin⟩ hnot
  · rw [harmed] at hnone
    cases hnone

theorem reclaimable_of {start : Int} (h : Sound s q) {now : Int} {after : List (Action σ)}
    (hafter : Untouched i key after) (hall : Swept start (s.ticks + ticksIn after) x)
    (hreclaims : Reclaims start s i now key x after) : Reclaimable start s i now key x after := by
  obtain ⟨s₁, q₁, hstep, hticks, hleft⟩ := h.expire start i now key x
  have hgone (as rest : List (Action σ)) (heq : after = as ++ rest) {s₂ : Server σ n}
      (hrun : s₁.run start as = some s₂) (hswept : Swept start s₂.ticks x) :
      (s₂.dbs i).ttlMap.lookup key = none := by
    obtain ⟨s₃, hrun₃, hclean⟩ := hreclaims as rest heq
    rw [Server.run, hstep, Option.bind_some, hrun, Option.some.injEq] at hrun₃
    subst hrun₃
    exact (hclean hswept).2
  rcases hleft with ⟨id, r, harmed, htracked⟩ | ⟨-, hlost⟩
  · refine ⟨id, r, s₁, harmed, ?_, hstep, ?_⟩
    · by_contra hlate
      have hswept {k : Nat} (hk : s.ticks + r ≤ k) : Swept start k x := by
        intro m hm
        by_contra hmk
        have := instant_mono start (Nat.le_trans hk (Nat.not_lt.mp hmk))
        omega
      have hprefix : ∃ as rest, after = as ++ rest ∧ ticksIn as = min r (ticksIn after) :=
        exists_ticksIn after (Nat.min_le_right _ _)
      obtain ⟨as, rest, rfl, hcount⟩ := hprefix
      obtain ⟨s₂, q₂, hrun, hcount₂, ⟨-, hlt, -⟩ | ⟨-, httl⟩⟩ := htracked.run start hafter
      · omega
      · have hdone : Swept start s₂.ticks x := by
          by_cases hr : r ≤ ticksIn (as ++ rest)
          · exact hswept (by omega)
          · have hwhole : s₂.ticks = s.ticks + ticksIn (as ++ rest) := by omega
            rwa [hwhole]
        rw [hgone as rest rfl hrun hdone] at httl
        cases httl
    · by_contra hfires
      have hwhole : Untouched i key (after ++ []) := by rwa [List.append_nil]
      obtain ⟨s₂, q₂, hrun, hcount, ⟨hf, -⟩ | ⟨-, httl⟩⟩ := htracked.run start hwhole
      · rw [List.append_nil] at hf
        exact hfires hf
      · rw [hgone after [] (List.append_nil _).symm hrun (by rwa [hcount, hticks])] at httl
        cases httl
  · obtain ⟨s₂, q₂, hrun, hcount, hlost₂⟩ := hlost.run start hafter
    have httl := hgone after [] (List.append_nil _).symm hrun (by rwa [hcount, hticks])
    rw [hlost₂.ttl] at httl
    cases httl

theorem reclaims_iff (start : Int) (dbs : Nat → DB σ) (n : Nat) [NeZero n] (before : List (Action σ))
    (s : Server σ n) (hs : (Server.init dbs n).run start before = some s) (i : Nat) (now : Int)
    (key : Bytes) (x : Int) (after : List (Action σ)) (hafter : Untouched i key after)
    (hall : Swept start (s.ticks + ticksIn after) x) :
    Reclaims start s i now key x after ↔ Reclaimable start s i now key x after := by
  obtain ⟨s', q, hrun, hsound⟩ := (init_sound (n := n) dbs).run start before
  obtain rfl := Option.some.inj (hs.symm.trans hrun)
  exact ⟨reclaimable_of hsound hafter hall, reclaims_of hsound hafter⟩

def emptyDB : DB Nat := ⟨∅, ∅, fun _ => 0⟩

def freshServer : Server Nat 3600 := .init (fun _ => emptyDB) 3600

def threeTicks : List (Action Nat) := [.tick fun _ => 0, .tick fun _ => 0, .tick fun _ => 0]

theorem threeTicks_untouched : Untouched 0 (bytes "k") threeTicks := by
  intro a ha
  simp only [threeTicks, List.mem_cons, List.not_mem_nil, or_false, or_self] at ha
  rw [ha, Action.target]
  exact (Option.some_ne_none _).symm

theorem threeTicks_swept : Swept 0 (freshServer.ticks + ticksIn threeTicks) 1200000000 := by
  intro m hm
  change m < 3
  simp only [instant, second] at hm
  omega

theorem reclaims_iff_halfway : Reclaims 0 freshServer 0 500000000 (bytes "k") 1200000000 threeTicks ↔
    Reclaimable 0 freshServer 0 500000000 (bytes "k") 1200000000 threeTicks :=
  reclaims_iff 0 (fun _ => emptyDB) 3600 [] freshServer rfl 0 500000000 (bytes "k") 1200000000
    threeTicks threeTicks_untouched threeTicks_swept

/-- A key that expires 0.7 s after an instant halfway between two ticks: its task is run by the
next tick, at 1 s, and finds that the key has not expired. -/
theorem not_reclaims_halfway : Untouched 0 (bytes "k") threeTicks ∧
    Swept 0 (freshServer.ticks + ticksIn threeTicks) 1200000000 ∧
      ¬ Reclaims 0 freshServer 0 500000000 (bytes "k") 1200000000 threeTicks := by
  refine ⟨threeTicks_untouched, threeTicks_swept, fun hreclaims => ?_⟩
  have hsound : Sound freshServer State.empty := init_sound _
  obtain ⟨id, r, s', harmed, -, hstep, hfires⟩ :=
    reclaimable_of hsound threeTicks_untouched threeTicks_swept hreclaims
  obtain ⟨s₁, q₁, hstep₁, hticks, -⟩ := hsound.expire 0 0 500000000 (bytes "k") 1200000000
  obtain rfl := Option.some.inj (hstep.symm.trans hstep₁)
  have hnow : armed freshServer 0 500000000 (bytes "k") 1200000000 = some (0, 0) := by decide
  rw [hnow, Option.some.injEq, Prod.mk.injEq] at harmed
  obtain ⟨rfl, rfl⟩ := harmed
  have hearly : (1200000000 : Int) < instant 0 s'.ticks + (0 : Nat) := hfires
  rw [hticks] at hearly
  exact absurd hearly (by decide)

end Traitor.ActiveExpiry
