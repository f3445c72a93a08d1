import Traitor.TimeWheel

namespace Traitor.ExpiryWheel

open Lib.Deadlines TimeWheel

variable {n : Nat} [NeZero n] {w : Wheel n} {s : State Bytes}

/-- None is the panic on an empty interval; an empty wheel has no type. -/
def new (interval n : Nat) [NeZero n] : Option (Wheel n) :=
  if interval = 0 then none else some (make interval n)

/-- The event loop hands a pointer to the received task to `addTask`. -/
def addTask (w : Wheel n) (t : Task) : Option (Wheel n) := TimeWheel.addTask .pointer w t

def removeTask (w : Wheel n) (key : Bytes) : Wheel n := TimeWheel.removeTask w key

/-- Only the locations of non-empty keys are deleted when their tasks are run. -/
def forgets (key : Bytes) : Bool := key ≠ []

def scanAndRunTask (w : Wheel n) (l : Fin n) : Option (Wheel n × List Element) :=
  TimeWheel.scanAndRunTask forgets w l

def run (w : Wheel n) (es : List (Event Bytes)) : Option (Wheel n × List (List Nat)) :=
  TimeWheel.run .pointer forgets w es

/-- A non-empty key has a location exactly when one element of the wheel has the
key, and the location is the slot and the address of that element. -/
def Located (w : Wheel n) (key : Bytes) : Prop :=
  match w.locationMap key with
  | some loc => ∃ e, e.id = loc.elem ∧ ∀ i,
      (w.slots i).filter (fun f => f.key = key) = if i = loc.slotIndex then [e] else []
  | none => ∀ i, (w.slots i).filter (fun f => f.key = key) = []

def slotOf (w : Wheel n) (p : Pending Bytes) : Fin n := slot n (w.currentPos + p.rem)

def element (n : Nat) (p : Pending Bytes) : Element := ⟨p.id, .pointer, p.rem / n, p.key⟩

/-- The wheel holds the pending tasks of the queue: slot and circle encode the
remaining ticks, and the map names the one task of each non-empty key. -/
structure Represents (w : Wheel n) (s : State Bytes) : Prop where
  interval : w.interval = second
  nextId : w.nextId = s.next
  slots : ∀ i, w.slots i = (s.pending.filter (fun p => slotOf w p = i)).map (element n)
  ids : ∀ key loc, w.locationMap key = some loc → loc.elem < s.next
  located : ∀ key, key ≠ [] → ∀ loc, w.locationMap key = some loc ↔
    ∃ p ∈ s.pending, p.key = key ∧ loc = ⟨slotOf w p, p.id⟩
  valid : s.Valid
  unique : ∀ p ∈ s.pending, ∀ q ∈ s.pending, p.key = q.key → p.key ≠ [] → p = q

theorem make_represents : Represents (make second n) State.empty where
  interval := rfl
  nextId := rfl
  slots i := by simp [make, State.empty]
  ids key loc h := by simp [make] at h
  located key _ loc := by simp [make, State.empty]
  valid := State.empty_valid
  unique p hp := by simp [State.empty] at hp

theorem remove_pending {s : State Bytes} {p : Pending Bytes} (hp : p ∈ s.pending)
    (hu : ∀ q ∈ s.pending, q.key = p.key → q = p) (hv : s.Valid) :
    (s.remove p.key).pending = s.pending.filter (fun q => ¬ q.id = p.id) := by
  rw [State.remove]
  apply List.filter_congr
  intro q hq
  by_cases hk : q.key = p.key
  · simp [hu q hq hk]
  · have hne : q.id ≠ p.id := fun he =>
      hk (by rw [List.inj_on_of_nodup_map hv.ids_nodup hq hp he])
    simp [hk, hne]

theorem Represents.remove {w : Wheel n} {s : State Bytes} (h : Represents w s) {key : Bytes}
    (hk : key ≠ []) : Represents (removeTask w key) (s.remove key) := by
  have hslot : ∀ p, slotOf (removeTask w key) p = slotOf w p := by
    intro p; simp [slotOf, removeTask]
  have hunique : ∀ p ∈ (s.remove key).pending, ∀ q ∈ (s.remove key).pending,
      p.key = q.key → p.key ≠ [] → p = q := fun p hp q hq =>
    h.unique p (List.mem_filter.mp hp).1 q (List.mem_filter.mp hq).1
  cases hl : w.locationMap key with
  | none =>
      have hfree : ∀ p ∈ s.pending, p.key ≠ key := by
        intro p hp he
        have hsome := (h.located key hk ⟨slotOf w p, p.id⟩).mpr ⟨p, hp, he, rfl⟩
        simp [hl] at hsome
      have hs : s.remove key = s := by
        rw [State.remove, List.filter_eq_self.mpr (by simpa using hfree)]
      rw [hs, removeTask, removeTask_none hl]
      exact h
  | some loc =>
      obtain ⟨p, hp, rfl, rfl⟩ := (h.located key hk loc).mp hl
      have hpend := remove_pending hp (fun q hq he => h.unique q hq p hp he (he ▸ hk)) h.valid
      refine ⟨by simp [removeTask, h.interval], by simp [removeTask, h.nextId, State.remove], ?_,
        ?_, ?_, State.remove_valid h.valid _, hunique⟩
      · intro i
        simp only [hslot, hpend]
        have hfilter : (removeTask w p.key).slots i =
            (w.slots i).filter (fun e => ¬ e.id = p.id) := by
          rw [removeTask, removeTask_slots hl]
          by_cases hi : i = slotOf w p
          · subst hi; simp
          · rw [Function.update_of_ne hi, eq_comm, List.filter_eq_self, h.slots]
            intro e he
            obtain ⟨q, hq, rfl⟩ := List.mem_map.mp he
            obtain ⟨hq, hqi⟩ := List.mem_filter.mp hq
            have hne : q.id ≠ p.id := fun hid => hi (by
              rw [← List.inj_on_of_nodup_map h.valid.ids_nodup hq hp hid]
              simpa using (of_decide_eq_true hqi).symm)
            exact decide_eq_true hne
        rw [hfilter, h.slots, List.filter_map, List.filter_filter, List.filter_filter]
        congr 1
        apply List.filter_congr
        intro q _
        simp only [Function.comp_apply, element]
        exact Bool.and_comm _ _
      · intro k loc hk'
        rw [removeTask, removeTask_locationMap hl] at hk'
        by_cases he : k = p.key
        · simp [he] at hk'
        · exact h.ids k loc (by simpa [he] using hk')
      · intro k hk' loc
        simp only [hslot]
        rw [removeTask, removeTask_locationMap hl]
        by_cases he : k = p.key
        · subst he
          rw [Function.update_self]
          refine ⟨fun hn => by simp at hn, ?_⟩
          rintro ⟨q, hq, hqk, _⟩
          obtain ⟨_, hqk'⟩ := List.mem_filter.mp hq
          exact absurd hqk (by simpa using hqk')
        · rw [Function.update_of_ne he, h.located k hk']
          simp only [State.remove, List.mem_filter]
          constructor
          · rintro ⟨q, hq, rfl, rfl⟩
            exact ⟨q, ⟨hq, by simpa using he⟩, rfl, rfl⟩
          · rintro ⟨q, ⟨hq, _⟩, rfl, rfl⟩
            exact ⟨q, hq, rfl, rfl⟩

def record (w : Wheel n) (key : Bytes) (pos : Fin n) (d : Nat) : Wheel n :=
  let pushed := pushBack w pos ⟨w.nextId, .pointer, d / n, key⟩
  { pushed with
    locationMap := Function.update pushed.locationMap key (some ⟨pos, w.nextId⟩) }

theorem Represents.push {w : Wheel n} {s : State Bytes} (h : Represents w s) (key : Bytes)
    (hfree : ∀ p ∈ s.pending, p.key = key → key = []) (d : Nat) :
    Represents (record w key (slot n (w.currentPos + d)) d)
      ⟨s.next + 1, s.pending ++ [⟨s.next, key, d⟩]⟩ := by
  have hslot : ∀ p, slotOf (record w key (slot n (w.currentPos + d)) d) p = slotOf w p :=
    fun p => rfl
  refine ⟨h.interval, by simp [record, pushBack, h.nextId], ?_, ?_, ?_, ?_, ?_⟩
  · intro i
    simp only [hslot, List.filter_append, List.map_append]
    rw [← h.slots]
    by_cases hi : i = slot n (w.currentPos + d)
    · subst hi
      simp [record, pushBack, slotOf, element, h.nextId]
    · simp [record, pushBack, hi, slotOf, Ne.symm hi]
  · intro k loc hl
    by_cases he : k = key
    · subst he
      simp only [record, Function.update_self, Option.some.injEq] at hl
      rw [← hl, h.nextId]
      exact Nat.lt_succ_self _
    · simp only [record, Function.update_of_ne he] at hl
      exact Nat.lt_succ_of_lt (h.ids k loc hl)
  · intro k hk loc
    by_cases he : k = key
    · subst he
      have hno : ∀ p ∈ s.pending, p.key ≠ k := fun p hp he => hk (hfree p hp he)
      simp only [record, Function.update_self, Option.some.injEq, List.mem_append,
        List.mem_singleton, h.nextId]
      constructor
      · rintro rfl
        exact ⟨_, Or.inr rfl, rfl, rfl⟩
      · rintro ⟨p, hp | rfl, hpk, rfl⟩
        · exact absurd hpk (hno p hp)
        · rfl
    · simp only [record, Function.update_of_ne he, List.mem_append, List.mem_singleton]
      rw [show (pushBack w (slot n (w.currentPos + d))
        ⟨w.nextId, .pointer, d / n, key⟩).locationMap k = w.locationMap k from rfl, h.located k hk]
      constructor
      · rintro ⟨p, hp, hpk, rfl⟩
        exact ⟨p, Or.inl hp, hpk, rfl⟩
      · rintro ⟨p, hp | rfl, hpk, rfl⟩
        · exact ⟨p, hp, hpk, rfl⟩
        · exact absurd hpk.symm he
  · have hv := State.add_valid [] h.valid [] d
    simp only [State.add, Replaced, ne_eq, not_true_eq_false, and_false, not_false_eq_true,
      decide_true, List.filter_true] at hv
    exact ⟨fun p hp => by
      rcases List.mem_append.mp hp with hp | hp
      · exact Nat.lt_succ_of_lt (h.valid.ids_lt p hp)
      · rw [List.mem_singleton.mp hp]; exact Nat.lt_succ_self _, by simpa using hv.ids_nodup⟩
  · intro p hp q hq he hne
    rcases List.mem_append.mp hp with hp | hp <;> rcases List.mem_append.mp hq with hq | hq
    · exact h.unique p hp q hq he hne
    · rw [List.mem_singleton.mp hq] at he
      exact absurd (he.trans (hfree p hp he)) hne
    · rw [List.mem_singleton.mp hp] at he hne
      exact absurd (hfree q hq he.symm) hne
    · rw [List.mem_singleton.mp hp, List.mem_singleton.mp hq]

theorem Represents.add {w : Wheel n} {s : State Bytes} (h : Represents w s) (key : Bytes) (d : Nat) :
    ∃ w', addTask w ⟨d * second, key⟩ = some w' ∧ Represents w' (s.add [] key d) := by
  have hids : ∀ key loc, w.locationMap key = some loc → loc.elem < w.nextId := by
    intro k loc hl
    rw [h.nextId]
    exact h.ids k loc hl
  rw [addTask, addTask_second .pointer h.interval hids]
  by_cases hk : key = []
  · subst hk
    have hs : s.add [] [] d = ⟨s.next + 1, s.pending ++ [⟨s.next, [], d⟩]⟩ := by
      simp [State.add, Replaced]
    rw [hs]
    exact ⟨_, rfl, h.push [] (fun _ _ _ => rfl) d⟩
  · have hs : s.add [] key d =
        ⟨s.next + 1, (s.remove key).pending ++ [⟨s.next, key, d⟩]⟩ := by
      simp [State.add, State.remove, Replaced, hk]
    have hr := h.remove hk
    have hp := hr.push key (fun p hp he => by
      obtain ⟨_, hpk⟩ := List.mem_filter.mp hp
      exact absurd he (by simpa using hpk)) d
    rw [hs]
    refine ⟨_, rfl, ?_⟩
    simpa [record, removeTask, hk, State.remove] using hp

theorem slotOf_eq_currentPos (w : Wheel n) (p : Pending Bytes) :
    slotOf w p = w.currentPos ↔ p.rem % n = 0 := slot_add_eq w.currentPos p.rem

/-- In the scanned slot the circle tells the task that is due from the others. -/
theorem rem_eq_zero_iff (w : Wheel n) (p : Pending Bytes) :
    p.rem = 0 ↔ slotOf w p = w.currentPos ∧ p.rem / n = 0 := by
  rw [slotOf_eq_currentPos]
  refine ⟨fun h => by simp [h], fun ⟨hm, hd⟩ => ?_⟩
  rw [← Nat.div_add_mod p.rem n, hm, hd, Nat.mul_zero]

/-- The ticks that a task seems to have before it when the position has moved on. One in the
slot that is left waits for a whole revolution. -/
def turn (n : Nat) (p : Pending Bytes) : Pending Bytes :=
  { p with rem := if p.rem % n = 0 then p.rem + n - 1 else p.rem - 1 }

theorem slotOf_turn (w : Wheel n) (p : Pending Bytes) :
    slotOf (tickHandler w) (turn n p) = slotOf w p := by
  have hn := Nat.pos_of_neZero n
  rw [slotOf, slotOf, tickHandler_currentPos]
  change slot n ((w.currentPos + 1) % n + (turn n p).rem) = _
  rw [slot_mod_add, turn]
  dsimp only
  split
  · have hround : w.currentPos.val + 1 + (p.rem + n - 1) = w.currentPos + p.rem + n := by omega
    rw [hround, slot, slot, Fin.mk.injEq, Nat.add_mod_right]
  · next hrem =>
      have hpos : p.rem ≠ 0 := fun hz => hrem (by rw [hz, Nat.zero_mod])
      congr 1
      omega

theorem element_turn (p : Pending Bytes) : element n (turn n p) = element n p := by
  have hn := Nat.pos_of_neZero n
  have hdiv : (turn n p).rem / n = p.rem / n := by
    have hsplit := Nat.div_add_mod p.rem n
    have hlt := Nat.mod_lt p.rem hn
    rw [turn]
    dsimp only
    split
    · next hz =>
        rw [show p.rem + n - 1 = n - 1 + n * (p.rem / n) by omega, Nat.add_mul_div_left _ _ hn,
          Nat.div_eq_of_lt (by omega), Nat.zero_add]
    · next hz =>
        rw [show p.rem - 1 = p.rem % n - 1 + n * (p.rem / n) by omega, Nat.add_mul_div_left _ _ hn,
          Nat.div_eq_of_lt (by omega), Nat.zero_add]
  rw [element, element, hdiv]
  rfl

/-- Only the position moves when the scan is left for later. -/
theorem Represents.turn (h : Represents w s) :
    Represents (tickHandler w) ⟨s.next, s.pending.map (ExpiryWheel.turn n)⟩ where
  interval := h.interval
  nextId := h.nextId
  slots i := by
    rw [List.filter_map, List.map_map]
    apply (h.slots i).trans
    have hfilter : (fun p => decide (slotOf (tickHandler w) p = i)) ∘ ExpiryWheel.turn n =
        fun p => decide (slotOf w p = i) := by
      funext p
      simp only [Function.comp_apply, slotOf_turn]
    rw [hfilter]
    exact List.map_congr_left fun p _ => (element_turn p).symm
  ids := h.ids
  located key hk loc := by
    apply (h.located key hk loc).trans
    simp only [List.mem_map, exists_exists_and_eq_and, slotOf_turn]
    rfl
  valid := by
    have hid : Pending.id ∘ ExpiryWheel.turn n = Pending.id := rfl
    refine ⟨fun p hp => ?_, ?_⟩
    · obtain ⟨p', hp', rfl⟩ := List.mem_map.mp hp
      exact h.valid.ids_lt p' hp'
    · rw [List.map_map, hid]
      exact h.valid.ids_nodup
  unique p hp q hq hkey hne := by
    obtain ⟨p', hp', rfl⟩ := List.mem_map.mp hp
    obtain ⟨q', hq', rfl⟩ := List.mem_map.mp hq
    rw [h.unique p' hp' q' hq' hkey hne]

def Scanned (w : Wheel n) (i : Fin n) (p : Pending Bytes) : Prop := slotOf w p = i ∧ p.rem / n = 0

instance (w : Wheel n) (i : Fin n) (p : Pending Bytes) : Decidable (Scanned w i p) :=
  inferInstanceAs (Decidable (_ ∧ _))

/-- The others of the slot have a revolution less before them. -/
def pass (w : Wheel n) (i : Fin n) (p : Pending Bytes) : Pending Bytes :=
  if slotOf w p = i then { p with rem := p.rem - n } else p

@[simp] theorem pass_id (w : Wheel n) (i : Fin n) (p : Pending Bytes) : (pass w i p).id = p.id := by
  rw [pass]
  split <;> rfl

@[simp] theorem pass_key (w : Wheel n) (i : Fin n) (p : Pending Bytes) : (pass w i p).key = p.key := by
  rw [pass]
  split <;> rfl

theorem slotOf_pass {i : Fin n} {p : Pending Bytes} (hp : ¬ Scanned w i p) :
    slotOf w (pass w i p) = slotOf w p := by
  rw [pass]
  split
  · next hi =>
      have hle : n ≤ p.rem := by
        by_contra hlt
        exact hp ⟨hi, Nat.div_eq_of_lt (by omega)⟩
      have hround : w.currentPos.val + p.rem = w.currentPos + (p.rem - n) + n := by omega
      rw [slotOf, slotOf, hround, slot, slot, Fin.mk.injEq, Nat.add_mod_right]
  · rfl

theorem element_pass {i : Fin n} {p : Pending Bytes} (hi : slotOf w p = i) :
    element n (pass w i p) = { element n p with circle := (element n p).circle - 1 } := by
  have hdiv : (p.rem - n) / n = p.rem / n - 1 := by
    have hsub := Nat.sub_mul_div p.rem n 1
    rwa [Nat.mul_one] at hsub
  rw [pass, if_pos hi]
  simp only [element, hdiv]

theorem pass_other {i : Fin n} {p : Pending Bytes} (hi : slotOf w p ≠ i) : pass w i p = p := by
  rw [pass, if_neg hi]

theorem Represents.scan_slot (h : Represents w s) (i : Fin n) :
    TimeWheel.scan (w.slots i) = some
      (((s.pending.filter (fun p => ¬ Scanned w i p)).filter (fun p => slotOf w p = i)).map
          (fun p => element n (pass w i p)),
        (s.pending.filter (Scanned w i)).map (element n)) := by
  have hptr : ∀ e ∈ w.slots i, e.value = .pointer := by
    intro e he
    rw [h.slots] at he
    obtain ⟨p, _, rfl⟩ := List.mem_map.mp he
    rfl
  rw [scan_pointers _ hptr, h.slots]
  simp only [List.filter_map, List.filter_filter, List.map_map, Option.some.injEq, Prod.mk.injEq]
  constructor
  · have hf : s.pending.filter (fun p => ((fun e : Element => decide (0 < e.circle)) ∘ element n) p &&
        decide (slotOf w p = i)) =
        s.pending.filter (fun p => decide (slotOf w p = i) && decide (¬ Scanned w i p)) := by
      apply List.filter_congr
      intro p _
      have hpos := Nat.pos_iff_ne_zero (n := p.rem / n)
      rw [show ((fun e : Element => decide (0 < e.circle)) ∘ element n) p =
        decide (0 < p.rem / n) from rfl, Bool.eq_iff_iff]
      have hscan : Scanned w i p ↔ slotOf w p = i ∧ p.rem / n = 0 := Iff.rfl
      simp only [Bool.and_eq_true, decide_eq_true_eq, hscan]
      tauto
    rw [hf]
    apply List.map_congr_left
    intro p hp
    obtain ⟨_, hc⟩ := List.mem_filter.mp hp
    simp only [Bool.and_eq_true, decide_eq_true_eq] at hc
    exact (element_pass hc.1).symm
  · congr 1
    apply List.filter_congr
    intro p _
    rw [show ((fun e : Element => decide (e.circle = 0)) ∘ element n) p =
      decide (p.rem / n = 0) from rfl, Bool.eq_iff_iff]
    have hscan : Scanned w i p ↔ slotOf w p = i ∧ p.rem / n = 0 := Iff.rfl
    simp only [Bool.and_eq_true, decide_eq_true_eq, hscan]
    tauto

theorem mem_passed {i : Fin n} {q : Pending Bytes} :
    q ∈ (s.pending.filter fun p => ¬ Scanned w i p).map (pass w i) ↔
      ∃ p ∈ s.pending, ¬ Scanned w i p ∧ q = pass w i p := by
  simp only [List.mem_map, List.mem_filter, decide_eq_true_eq, and_assoc]
  constructor
  · rintro ⟨p, hp, hr, rfl⟩
    exact ⟨p, hp, hr, rfl⟩
  · rintro ⟨p, hp, hr, rfl⟩
    exact ⟨p, hp, hr, rfl⟩

/-- Only the slot that is scanned is another after it. -/
theorem Represents.slots_passed (h : Represents w s) (i j : Fin n) :
    Function.update w.slots i (((s.pending.filter (fun p => ¬ Scanned w i p)).filter (fun p => slotOf w p = i)).map
        (fun p => element n (pass w i p))) j =
      (((s.pending.filter fun p => ¬ Scanned w i p).map (pass w i)).filter fun q => slotOf w q = j).map
        (element n) := by
  rw [List.filter_map, List.map_map]
  have hfilter : (s.pending.filter fun p => ¬ Scanned w i p).filter
      ((fun q => decide (slotOf w q = j)) ∘ pass w i) =
      (s.pending.filter fun p => ¬ Scanned w i p).filter (fun p => slotOf w p = j) := by
    apply List.filter_congr
    intro p hp
    have hstays := of_decide_eq_true (List.mem_filter.mp hp).2
    rw [Function.comp_apply, slotOf_pass hstays]
  rw [hfilter]
  by_cases hj : j = i
  · rw [hj, Function.update_self]
    rfl
  · rw [Function.update_of_ne hj, h.slots, List.filter_filter]
    have hothers : s.pending.filter
        (fun p => decide (slotOf w p = j) && decide (¬ Scanned w i p)) =
        s.pending.filter (fun p => slotOf w p = j) := by
      apply List.filter_congr
      intro p _
      rw [Bool.eq_iff_iff]
      simp only [Bool.and_eq_true, decide_eq_true_eq]
      exact ⟨fun hc => hc.1, fun hc => ⟨hc, fun hs => hj (hc ▸ hs.1)⟩⟩
    rw [hothers]
    apply List.map_congr_left
    intro p hp
    have hs : slotOf w p = j := of_decide_eq_true (List.mem_filter.mp hp).2
    rw [Function.comp_apply, pass_other (hs ▸ hj)]

/-- The tasks that are left are the ones with a location after the scan, and it is the one from before. -/
theorem Represents.located_passed (h : Represents w s) (i : Fin n) {key : Bytes} (hk : key ≠ []) (loc : Location n) :
    (if ∃ p ∈ s.pending, Scanned w i p ∧ p.key = key then none else w.locationMap key) = some loc ↔
      ∃ q ∈ (s.pending.filter fun p => ¬ Scanned w i p).map (pass w i), q.key = key ∧ loc = ⟨slotOf w q, q.id⟩ := by
  by_cases hr : ∃ p ∈ s.pending, Scanned w i p ∧ p.key = key
  · rw [if_pos hr]
    obtain ⟨p, hp, hpr, rfl⟩ := hr
    refine ⟨fun hn => by simp at hn, ?_⟩
    rintro ⟨q, hq, hqk, _⟩
    obtain ⟨q', hq', hr', rfl⟩ := mem_passed.mp hq
    rw [pass_key] at hqk
    exact absurd (h.unique q' hq' p hp hqk (hqk ▸ hk) ▸ hpr) hr'
  · rw [if_neg hr, h.located key hk]
    constructor
    · rintro ⟨p, hp, rfl, rfl⟩
      have hstays : ¬ Scanned w i p := fun hs => hr ⟨p, hp, hs, rfl⟩
      refine ⟨_, mem_passed.mpr ⟨p, hp, hstays, rfl⟩, pass_key w i p, ?_⟩
      rw [pass_id, ← slotOf_pass hstays]
    · rintro ⟨q, hq, rfl, rfl⟩
      obtain ⟨p, hp, hstays, rfl⟩ := mem_passed.mp hq
      refine ⟨p, hp, (pass_key w i p).symm, ?_⟩
      rw [pass_id, ← slotOf_pass hstays]

/-- The scan of any slot, at any time: the position has no part in it. -/
theorem Represents.scanAndRunTask (h : Represents w s) {forgets : Bytes → Bool}
    (hforgets : ∀ key, key ≠ [] → forgets key = true) (i : Fin n) :
    ∃ w' ran, TimeWheel.scanAndRunTask forgets w i = some (w', ran) ∧
      ran.map Element.id = (s.pending.filter (Scanned w i)).map Pending.id ∧
      w'.currentPos = w.currentPos ∧
      Represents w' ⟨s.next, (s.pending.filter fun p => ¬ Scanned w i p).map (pass w i)⟩ := by
  refine ⟨_, _, by rw [TimeWheel.scanAndRunTask, h.scan_slot i]; rfl, ?_, ?_, ?_⟩
  · rw [List.map_map]
    rfl
  · rfl
  refine ⟨h.interval, h.nextId, h.slots_passed i, ?_, ?_, ⟨?_, ?_⟩, ?_⟩
  · intro key loc hl
    apply h.ids key loc
    simp only at hl
    split at hl
    · cases hl
    · exact hl
  · intro key hk loc
    have hran : key ∈ ((s.pending.filter (Scanned w i)).map (element n)).map Element.key ↔
        ∃ p ∈ s.pending, Scanned w i p ∧ p.key = key := by
      simp only [List.map_map, List.mem_map, List.mem_filter, decide_eq_true_eq, and_assoc]
      rfl
    simp only [hran, hforgets key hk, true_and]
    exact h.located_passed i hk loc
  · intro q hq
    obtain ⟨p, hp, _, rfl⟩ := mem_passed.mp hq
    rw [pass_id]
    exact h.valid.ids_lt p hp
  · rw [List.map_map]
    have hid : Pending.id ∘ pass w i = Pending.id := funext (pass_id w i)
    rw [hid]
    exact h.valid.ids_nodup.sublist (List.filter_sublist.map _)
  · intro p hp q hq he hne
    obtain ⟨p', hp', _, rfl⟩ := mem_passed.mp hp
    obtain ⟨q', hq', _, rfl⟩ := mem_passed.mp hq
    rw [pass_key, pass_key] at he
    rw [pass_key] at hne
    rw [h.unique p' hp' q' hq' he hne]

theorem scanned_turn_iff (w : Wheel n) (p : Pending Bytes) :
    Scanned (tickHandler w) w.currentPos (turn n p) ↔ p.rem = 0 := by
  have hcircle := congrArg Element.circle (element_turn (n := n) p)
  have hround : (turn n p).rem / n = p.rem / n := hcircle
  rw [Scanned, slotOf_turn, hround, rem_eq_zero_iff w p]

theorem pass_turn (w : Wheel n) (p : Pending Bytes) :
    pass (tickHandler w) w.currentPos (turn n p) = { p with rem := p.rem - 1 } := by
  by_cases hround : p.rem % n = 0
  · have hslot : slotOf w p = w.currentPos := (slotOf_eq_currentPos w p).mpr hround
    rw [pass, slotOf_turn, if_pos hslot, turn, if_pos hround]
    dsimp only
    congr 1
    omega
  · have hslot : ¬ slotOf w p = w.currentPos := fun hs => hround ((slotOf_eq_currentPos w p).mp hs)
    rw [pass, slotOf_turn, if_neg hslot, turn, if_neg hround]

theorem Represents.tick {w : Wheel n} {s : State Bytes} (h : Represents w s)
    {forgets : Bytes → Bool} (hforgets : ∀ key, key ≠ [] → forgets key = true) :
    ∃ w' ran, TimeWheel.tick forgets w = some (w', ran) ∧ ran.map Element.id = s.expired ∧
      Represents w' s.tick := by
  obtain ⟨w', ran, hscan, hran, -, hw⟩ := h.turn.scanAndRunTask hforgets w.currentPos
  refine ⟨w', ran, hscan, ?_, ?_⟩
  · rw [hran, List.filter_map, List.map_map, State.expired]
    have hfilter : s.pending.filter
        ((fun p => decide (Scanned (tickHandler w) w.currentPos p)) ∘ ExpiryWheel.turn n) =
        s.pending.filter fun p => p.rem = 0 := by
      apply List.filter_congr
      intro p _
      rw [Function.comp_apply, decide_eq_decide]
      exact scanned_turn_iff w p
    rw [hfilter]
    rfl
  · rw [List.filter_map, List.map_map] at hw
    have hfilter : s.pending.filter
        ((fun p => decide (¬ Scanned (tickHandler w) w.currentPos p)) ∘ ExpiryWheel.turn n) =
        s.pending.filter fun p => ¬ p.rem = 0 := by
      apply List.filter_congr
      intro p _
      rw [Function.comp_apply, decide_eq_decide]
      exact not_congr (scanned_turn_iff w p)
    have hmap : (s.pending.filter fun p => ¬ p.rem = 0).map
        (pass (tickHandler w) w.currentPos ∘ ExpiryWheel.turn n) =
        (s.pending.filter fun p => ¬ p.rem = 0).map fun p => { p with rem := p.rem - 1 } :=
      List.map_congr_left fun p _ => pass_turn w p
    rw [hfilter, hmap] at hw
    exact hw

theorem Represents.run {w : Wheel n} {s : State Bytes} (h : Represents w s)
    {forgets : Bytes → Bool} (hforgets : ∀ key, key ≠ [] → forgets key = true)
    (es : List (Event Bytes)) (hes : Event.remove [] ∉ es) :
    ∃ w' s', TimeWheel.run .pointer forgets w es = some (w', trace [] s es) ∧
      Represents w' s' := by
  induction es generalizing w s with
  | nil => exact ⟨w, s, rfl, h⟩
  | cons e es ih =>
      have htail : Event.remove [] ∉ es := fun hm => hes (List.mem_cons_of_mem _ hm)
      cases e with
      | add key d =>
          obtain ⟨w₁, ha, h₁⟩ := h.add key d
          obtain ⟨w₂, s₂, hr, h₂⟩ := ih h₁ htail
          refine ⟨w₂, s₂, ?_, h₂⟩
          rw [TimeWheel.run, show TimeWheel.addTask _ _ _ = _ from ha]
          exact hr
      | remove key =>
          have hk : key ≠ [] := by rintro rfl; exact hes List.mem_cons_self
          exact ih (h.remove hk) htail
      | tick =>
          obtain ⟨w₁, ran, ht, hran, h₁⟩ := h.tick hforgets
          obtain ⟨w₂, s₂, hr, h₂⟩ := ih h₁ htail
          refine ⟨w₂, s₂, ?_, h₂⟩
          simp only [TimeWheel.run, ht, Option.bind_some, trace, ← hran, hr, Option.map_some]

omit [NeZero n] in
theorem filter_eq_singleton {α : Type} {l : List α} (hl : l.Nodup) {a : α} (ha : a ∈ l)
    {f : α → Bool} (hf : f a) (hu : ∀ b ∈ l, f b → b = a) : l.filter f = [a] := by
  have hmem : ∀ b ∈ l.filter f, b = a := fun b hb =>
    hu b (List.mem_filter.mp hb).1 (List.mem_filter.mp hb).2
  have hnd := hl.filter f
  have hin : a ∈ l.filter f := List.mem_filter.mpr ⟨ha, hf⟩
  cases hc : l.filter f with
  | nil => simp [hc] at hin
  | cons b bs =>
      rw [hc] at hmem hnd
      have hb : b = a := hmem b List.mem_cons_self
      subst b
      cases bs with
      | nil => rfl
      | cons c cs =>
          have hca : c = a := hmem c (List.mem_cons_of_mem _ List.mem_cons_self)
          exact absurd (hca ▸ List.mem_cons_self) (List.nodup_cons.mp hnd).1

theorem Represents.locatedKey {w : Wheel n} {s : State Bytes} (h : Represents w s) {key : Bytes}
    (hk : key ≠ []) : Located w key := by
  have hfilter : ∀ i, (w.slots i).filter (fun f => f.key = key) =
      (s.pending.filter (fun p => p.key = key ∧ slotOf w p = i)).map (element n) := by
    intro i
    rw [h.slots, List.filter_map, List.filter_filter]
    congr 1
    apply List.filter_congr
    intro p _
    simp only [Function.comp_apply, element, Bool.decide_and]
    rfl
  rw [Located]
  split
  next loc hl =>
    obtain ⟨p, hp, rfl, rfl⟩ := (h.located key hk loc).mp hl
    refine ⟨element n p, rfl, fun i => ?_⟩
    rw [hfilter]
    by_cases hi : i = slotOf w p
    · rw [if_pos hi, filter_eq_singleton h.valid.ids_nodup.of_map hp (by simp [hi])]
      · rfl
      · intro q hq hc
        exact h.unique q hq p hp (of_decide_eq_true hc).1 ((of_decide_eq_true hc).1 ▸ hk)
    · rw [if_neg hi, List.map_eq_nil_iff, List.filter_eq_nil_iff]
      intro q hq hc
      obtain ⟨hqk, hqi⟩ := of_decide_eq_true hc
      exact hi (by rw [← hqi, h.unique q hq p hp hqk (hqk ▸ hk)])
  next hl =>
    intro i
    rw [hfilter, List.map_eq_nil_iff, List.filter_eq_nil_iff]
    intro p hp hc
    have hsome := (h.located key hk ⟨slotOf w p, p.id⟩).mpr
      ⟨p, hp, (of_decide_eq_true hc).1, rfl⟩
    simp [hl] at hsome

/-- Every task of the expiry wheel runs exactly once and on time unless it is
removed or replaced, and the location map and the slots agree on every key. -/
theorem run_on_time (es : List (Event Bytes)) (hes : Event.remove [] ∉ es) :
    ∃ w runs, (new second n).bind (run · es) = some (w, runs) ∧ RunsOnTime [] es runs ∧
      ∀ key, key ≠ [] → Located w key := by
  have hforgets (key : Bytes) (hkey : key ≠ []) : forgets key = true := decide_eq_true hkey
  obtain ⟨w, s, hr, h⟩ := (make_represents (n := n)).run hforgets es hes
  exact ⟨w, _, hr, trace_runsOnTime [] es, fun key hk => h.locatedKey hk⟩

theorem run_on_time_replaced :
    ∃ w runs, (new second 3).bind
        (run · [.add (bytes "k") 1, .add (bytes "k") 4, .tick, .tick]) = some (w, runs) ∧
      RunsOnTime [] [.add (bytes "k") 1, .add (bytes "k") 4, .tick, .tick] runs ∧
      ∀ key, key ≠ [] → Located w key :=
  run_on_time [.add (bytes "k") 1, .add (bytes "k") 4, .tick, .tick] (by decide)

end Traitor.ExpiryWheel
