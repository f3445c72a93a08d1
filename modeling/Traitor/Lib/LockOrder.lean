import Mathlib.Data.Finset.Basic
import Mathlib.Logic.Relation
import Mathlib.Order.WellFounded

namespace Traitor.Lib.LockOrder

inductive Mode
  | read
  | write
deriving DecidableEq

abbrev Access (I : Type) := I × Mode

/-- The writer has announced itself, and holds the lock once the readers are gone. Readers
that come after it wait until it unlocks. -/
structure RWMutex (ι : Type) where
  readers : Finset ι
  writer : Option ι
  waiting : Finset ι

namespace RWMutex

variable {ι : Type}

def free : RWMutex ι := ⟨∅, none, ∅⟩

/-- What the mutex says of a client. A writer that waits for the readers counts. -/
def Owns (m : RWMutex ι) (c : ι) : Mode → Prop
  | .read => c ∈ m.readers
  | .write => m.writer = some c

variable [DecidableEq ι]

def rLock (m : RWMutex ι) (c : ι) : RWMutex ι := { m with readers := insert c m.readers }

def park (m : RWMutex ι) (c : ι) : RWMutex ι := { m with waiting := insert c m.waiting }

def announce (m : RWMutex ι) (c : ι) : RWMutex ι := { m with writer := some c }

def rUnlock (m : RWMutex ι) (c : ι) : RWMutex ι := { m with readers := m.readers.erase c }

def unlock (m : RWMutex ι) : RWMutex ι := ⟨m.readers ∪ m.waiting, none, ∅⟩

end RWMutex

structure Discipline (I R : Type) [LinearOrder I] where
  acquire : R → List (Access I)
  release : R → List (Access I)
  ascending : ∀ r, (acquire r).Pairwise fun a b => a.1 < b.1
  perm : ∀ r, (release r).Perm (acquire r)

/-- How far a client is. It is `parked` at a slot that a writer has, and `draining` at one
where it waits for the readers. -/
inductive Stage (I R : Type)
  | idle
  | locking (r : R) (todo : List (Access I))
  | parked (r : R) (i : I) (todo : List (Access I))
  | draining (r : R) (i : I) (todo : List (Access I))
  | holding (r : R)
  | unlocking (r : R) (todo : List (Access I))

structure System (ι I R : Type) where
  slots : I → RWMutex ι
  stages : ι → Stage I R

def System.initial (ι I R : Type) : System ι I R := ⟨fun _ => .free, fun _ => .idle⟩

section

variable {ι I R : Type} [DecidableEq ι] [LinearOrder I] {d : Discipline I R}

namespace System

def set (s : System ι I R) (c : ι) (stage : Stage I R) : System ι I R :=
  { s with stages := Function.update s.stages c stage }

def put (s : System ι I R) (c : ι) (i : I) (m : RWMutex ι) (stage : Stage I R) : System ι I R :=
  ⟨Function.update s.slots i m, Function.update s.stages c stage⟩

end System

inductive Step (d : Discipline I R) (c : ι) (s : System ι I R) : System ι I R → Prop
  | lockAll (r : R) (h : s.stages c = .idle) : Step d c s (s.set c (.locking r (d.acquire r)))
  | rLock (r : R) (i : I) (todo : List (Access I)) (h : s.stages c = .locking r ((i, .read) :: todo))
      (hfree : (s.slots i).writer = none) :
      Step d c s (s.put c i ((s.slots i).rLock c) (.locking r todo))
  | park (r : R) (i : I) (todo : List (Access I)) (h : s.stages c = .locking r ((i, .read) :: todo))
      (hwriter : (s.slots i).writer ≠ none) :
      Step d c s (s.put c i ((s.slots i).park c) (.parked r i todo))
  | wake (r : R) (i : I) (todo : List (Access I)) (h : s.stages c = .parked r i todo)
      (hread : c ∈ (s.slots i).readers) : Step d c s (s.set c (.locking r todo))
  | announce (r : R) (i : I) (todo : List (Access I))
      (h : s.stages c = .locking r ((i, .write) :: todo)) (hfree : (s.slots i).writer = none) :
      Step d c s (s.put c i ((s.slots i).announce c) (.draining r i todo))
  | drained (r : R) (i : I) (todo : List (Access I)) (h : s.stages c = .draining r i todo)
      (hfree : (s.slots i).readers = ∅) : Step d c s (s.set c (.locking r todo))
  | locked (r : R) (h : s.stages c = .locking r []) : Step d c s (s.set c (.holding r))
  | unlockAll (r : R) (h : s.stages c = .holding r) :
      Step d c s (s.set c (.unlocking r (d.release r)))
  | rUnlock (r : R) (i : I) (todo : List (Access I))
      (h : s.stages c = .unlocking r ((i, .read) :: todo)) :
      Step d c s (s.put c i ((s.slots i).rUnlock c) (.unlocking r todo))
  | unlock (r : R) (i : I) (todo : List (Access I))
      (h : s.stages c = .unlocking r ((i, .write) :: todo)) :
      Step d c s (s.put c i (s.slots i).unlock (.unlocking r todo))
  | unlocked (r : R) (h : s.stages c = .unlocking r []) : Step d c s (s.set c .idle)

def Reachable (d : Discipline I R) (s : System ι I R) : Prop :=
  Relation.ReflTransGen (fun s s' => ∃ c, Step d c s s') (.initial ι I R) s

def System.Owns (s : System ι I R) (c : ι) (a : Access I) : Prop := (s.slots a.1).Owns c a.2

def System.Has (s : System ι I R) (c : ι) (l : List (Access I)) (slot : Option I) : Prop :=
  (∀ a, s.Owns c a ↔ a ∈ l) ∧ ∀ i, c ∈ (s.slots i).waiting ↔ slot = some i

def Fits (d : Discipline I R) (s : System ι I R) (c : ι) : Prop :=
  match s.stages c with
  | .idle => s.Has c [] none
  | .locking r todo => ∃ done, d.acquire r = done ++ todo ∧ s.Has c done none
  | .parked r i todo => ∃ done, d.acquire r = done ++ (i, .read) :: todo ∧
      (s.Has c done (some i) ∨ s.Has c (done ++ [(i, .read)]) none)
  | .draining r i todo => ∃ done, d.acquire r = done ++ (i, .write) :: todo ∧
      s.Has c (done ++ [(i, .write)]) none
  | .holding r => s.Has c (d.acquire r) none
  | .unlocking r todo => ∃ released, d.release r = released ++ todo ∧ s.Has c todo none

def System.Drains (s : System ι I R) (c : ι) (i : I) : Prop :=
  ∃ r todo, s.stages c = .draining r i todo

structure Inv (d : Discipline I R) (s : System ι I R) : Prop where
  fits : ∀ c, Fits d s c
  waiting : ∀ i, (s.slots i).writer = none → (s.slots i).waiting = ∅
  readers : ∀ i c, (s.slots i).writer = some c → ¬ s.Drains c i → (s.slots i).readers = ∅

omit [DecidableEq ι] in
theorem inv_initial : Inv d (.initial ι I R) where
  fits c := by
    refine ⟨fun a => ?_, fun i => ?_⟩
    · obtain ⟨i, mode⟩ := a
      cases mode with
      | read => simp [System.Owns, RWMutex.Owns, System.initial, RWMutex.free]
      | write => simp [System.Owns, RWMutex.Owns, System.initial, RWMutex.free]
    · simp [System.initial, RWMutex.free]
  waiting _ _ := rfl
  readers _ _ _ _ := rfl

variable {s : System ι I R} {c c' : ι} {i : I} {m : RWMutex ι} {stage : Stage I R}
  {l l' : List (Access I)} {slot slot' : Option I}

omit [DecidableEq ι] [LinearOrder I] in
theorem System.Has.frame {s' : System ι I R} (h : s.Has c l slot)
    (howns : ∀ a, s'.Owns c a ↔ s.Owns c a)
    (hwaiting : ∀ i, c ∈ (s'.slots i).waiting ↔ c ∈ (s.slots i).waiting) : s'.Has c l slot :=
  ⟨fun a => (howns a).trans (h.1 a), fun i => (hwaiting i).trans (h.2 i)⟩

omit [DecidableEq ι] in
theorem Fits.frame {s' : System ι I R} (h : Fits d s c) (hstage : s'.stages c = s.stages c)
    (howns : ∀ a, s'.Owns c a ↔ s.Owns c a)
    (hwaiting : ∀ i, c ∈ (s'.slots i).waiting ↔ c ∈ (s.slots i).waiting) : Fits d s' c := by
  unfold Fits at h ⊢
  rw [hstage]
  cases hs : s.stages c with
  | idle =>
      rw [hs] at h
      exact h.frame howns hwaiting
  | locking r todo =>
      rw [hs] at h
      obtain ⟨done, hdone, hhas⟩ := h
      exact ⟨done, hdone, hhas.frame howns hwaiting⟩
  | parked r i todo =>
      rw [hs] at h
      obtain ⟨done, hdone, hhas | hhas⟩ := h
      · exact ⟨done, hdone, .inl (hhas.frame howns hwaiting)⟩
      · exact ⟨done, hdone, .inr (hhas.frame howns hwaiting)⟩
  | draining r i todo =>
      rw [hs] at h
      obtain ⟨done, hdone, hhas⟩ := h
      exact ⟨done, hdone, hhas.frame howns hwaiting⟩
  | holding r =>
      rw [hs] at h
      exact h.frame howns hwaiting
  | unlocking r todo =>
      rw [hs] at h
      obtain ⟨released, hreleased, hhas⟩ := h
      exact ⟨released, hreleased, hhas.frame howns hwaiting⟩

omit [LinearOrder I] in
theorem System.set_stages : (s.set c stage).stages c = stage := Function.update_self _ _ _

omit [LinearOrder I] in
theorem System.set_stages_of_ne (h : c' ≠ c) : (s.set c stage).stages c' = s.stages c' :=
  Function.update_of_ne h _ _

theorem System.put_stages : (s.put c i m stage).stages c = stage := Function.update_self _ _ _

theorem System.put_stages_of_ne (h : c' ≠ c) : (s.put c i m stage).stages c' = s.stages c' :=
  Function.update_of_ne h _ _

theorem System.put_slots : (s.put c i m stage).slots i = m := Function.update_self _ _ _

theorem System.put_slots_of_ne {j : I} (h : j ≠ i) : (s.put c i m stage).slots j = s.slots j :=
  Function.update_of_ne h _ _

/-- The slot that is locked or unlocked makes the difference. -/
theorem System.Has.put (h : s.Has c' l slot) (howns : ∀ mode, m.Owns c' mode ↔ (i, mode) ∈ l')
    (hothers : ∀ a : Access I, a.1 ≠ i → (a ∈ l' ↔ a ∈ l)) (hwaiting : c' ∈ m.waiting ↔ slot' = some i)
    (hslots : ∀ j ≠ i, slot' = some j ↔ slot = some j) :
    (s.put c i m stage).Has c' l' slot' := by
  refine ⟨fun a => ?_, fun j => ?_⟩
  · by_cases ha : a.1 = i
    · obtain ⟨j, mode⟩ := a
      obtain rfl : j = i := ha
      rw [System.Owns, System.put_slots]
      exact howns mode
    · rw [System.Owns, System.put_slots_of_ne ha, hothers a ha]
      exact h.1 a
  · by_cases hj : j = i
    · subst hj
      rw [System.put_slots]
      exact hwaiting
    · rw [System.put_slots_of_ne hj, hslots j hj]
      exact h.2 j

/-- Another client is not concerned by what happens at a slot. -/
theorem Fits.put (h : Fits d s c') (hne : c' ≠ c) (howns : ∀ mode, m.Owns c' mode ↔ (s.slots i).Owns c' mode)
    (hwaiting : c' ∈ m.waiting ↔ c' ∈ (s.slots i).waiting) : Fits d (s.put c i m stage) c' := by
  refine h.frame (System.put_stages_of_ne hne) (fun a => ?_) fun j => ?_
  · by_cases ha : a.1 = i
    · subst ha
      rw [System.Owns, System.put_slots]
      exact howns a.2
    · rw [System.Owns, System.put_slots_of_ne ha]
      rfl
  · by_cases hj : j = i
    · subst hj
      rw [System.put_slots]
      exact hwaiting
    · rw [System.put_slots_of_ne hj]

theorem Inv.set (h : Inv d s) (hfits : Fits d (s.set c stage) c)
    (hdrains : ∀ i, s.Drains c i → (s.slots i).readers = ∅) : Inv d (s.set c stage) where
  fits c' := by
    by_cases hc : c' = c
    · exact hc ▸ hfits
    · exact (h.fits c').frame (System.set_stages_of_ne hc) (fun _ => .rfl) fun _ => .rfl
  waiting := h.waiting
  readers i c' hwriter hnot := by
    by_cases hc : c' = c
    · subst hc
      by_cases hd : s.Drains c' i
      · exact hdrains i hd
      · exact h.readers i c' hwriter hd
    · refine h.readers i c' hwriter fun hd => hnot ?_
      rwa [System.Drains, System.set_stages_of_ne hc]

theorem Inv.put (h : Inv d s) (hfits : Fits d (s.put c i m stage) c)
    (hothers : ∀ c' ≠ c, Fits d (s.put c i m stage) c') (hwaiting : m.writer = none → m.waiting = ∅)
    (hreaders : ∀ c', m.writer = some c' → ¬ (s.put c i m stage).Drains c' i → m.readers = ∅)
    (hdrains : ∀ j, ¬ s.Drains c j) : Inv d (s.put c i m stage) where
  fits c' := by
    by_cases hc : c' = c
    · exact hc ▸ hfits
    · exact hothers c' hc
  waiting j hwriter := by
    by_cases hj : j = i
    · subst hj
      rw [System.put_slots] at hwriter ⊢
      exact hwaiting hwriter
    · rw [System.put_slots_of_ne hj] at hwriter ⊢
      exact h.waiting j hwriter
  readers j c' hwriter hnot := by
    by_cases hj : j = i
    · subst hj
      rw [System.put_slots] at hwriter ⊢
      exact hreaders c' hwriter hnot
    · rw [System.put_slots_of_ne hj] at hwriter ⊢
      apply h.readers j c' hwriter
      intro hd
      by_cases hc : c' = c
      · exact hdrains j (hc ▸ hd)
      · apply hnot
        rwa [System.Drains, System.put_stages_of_ne hc]

omit [DecidableEq ι] in
theorem not_mem_done {r : R} {done todo : List (Access I)} {a : Access I}
    (h : d.acquire r = done ++ a :: todo) (mode : Mode) : (a.1, mode) ∉ done := by
  intro hmem
  have hlt := (List.pairwise_append.mp (h ▸ d.ascending r)).2.2 _ hmem a List.mem_cons_self
  exact lt_irrefl _ hlt

theorem not_mem_todo {r : R} {released todo : List (Access I)} {a : Access I}
    (h : d.release r = released ++ a :: todo) (mode : Mode) : (a.1, mode) ∉ todo := by
  have hne : (d.acquire r).Pairwise fun a b => a.1 ≠ b.1 := (d.ascending r).imp fun hab => ne_of_lt hab
  have hpairwise := (d.perm r).symm.pairwise hne fun hab => hab.symm
  rw [h] at hpairwise
  intro hmem
  exact (List.pairwise_cons.mp (List.pairwise_append.mp hpairwise).2.1).1 _ hmem rfl

omit [DecidableEq ι] [LinearOrder I] in
theorem System.not_drains (h : s.stages c = stage) (hstage : ∀ r i todo, stage ≠ .draining r i todo)
    (i : I) : ¬ s.Drains c i := by
  rintro ⟨r, todo, hd⟩
  exact hstage r i todo (h.symm.trans hd)

theorem Inv.lockAll {r : R} (h : Inv d s) (hs : s.stages c = .idle) :
    Inv d (s.set c (.locking r (d.acquire r))) := by
  have hf := h.fits c
  rw [Fits, hs] at hf
  refine h.set ?_ fun i hd => absurd hd (System.not_drains hs nofun i)
  rw [Fits, System.set_stages]
  exact ⟨[], rfl, hf⟩

theorem Inv.rLock {r : R} {todo : List (Access I)} (h : Inv d s)
    (hs : s.stages c = .locking r ((i, .read) :: todo)) (hfree : (s.slots i).writer = none) :
    Inv d (s.put c i ((s.slots i).rLock c) (.locking r todo)) := by
  have hf := h.fits c
  rw [Fits, hs] at hf
  obtain ⟨done, hdone, hhas⟩ := hf
  refine h.put ?_ (fun c' hc => ?_) (h.waiting i) (fun c' hwriter => ?_) (System.not_drains hs nofun)
  · rw [Fits, System.put_stages]
    refine ⟨done ++ [(i, .read)], by simp [hdone], hhas.put (fun mode => ?_) (fun a ha => ?_) ?_ ?_⟩
    · cases mode with
      | read => simp [RWMutex.Owns, RWMutex.rLock]
      | write =>
          have hwrite := hhas.1 (i, .write)
          simpa [RWMutex.rLock, System.Owns, RWMutex.Owns] using hwrite
    · simp only [List.mem_append, List.mem_singleton, or_iff_left_iff_imp]
      rintro rfl
      exact absurd rfl ha
    · exact hhas.2 i
    · exact fun _ _ => .rfl
  · refine (h.fits c').put hc (fun mode => ?_) .rfl
    cases mode with
    | read => simp [RWMutex.Owns, RWMutex.rLock, hc]
    | write => exact .rfl
  · simp [RWMutex.rLock, hfree] at hwriter

theorem Inv.park {r : R} {todo : List (Access I)} (h : Inv d s)
    (hs : s.stages c = .locking r ((i, .read) :: todo)) (hwriter : (s.slots i).writer ≠ none) :
    Inv d (s.put c i ((s.slots i).park c) (.parked r i todo)) := by
  have hf := h.fits c
  rw [Fits, hs] at hf
  obtain ⟨done, hdone, hhas⟩ := hf
  have hnot := System.not_drains hs nofun
  refine h.put ?_ (fun c' hc => ?_) (fun hnone => absurd hnone hwriter) (fun c' hw hd => ?_) hnot
  · rw [Fits, System.put_stages]
    refine ⟨done, hdone, .inl (hhas.put (fun mode => hhas.1 (i, mode)) (fun _ _ => .rfl) ?_ ?_)⟩
    · simp [RWMutex.park]
    · intro j hj
      simp [Ne.symm hj]
  · refine (h.fits c').put hc (fun mode => .rfl) ?_
    simp [RWMutex.park, hc]
  · refine h.readers i c' hw fun hd' => hd ?_
    by_cases hc : c' = c
    · exact absurd (hc ▸ hd') (hnot i)
    · rwa [System.Drains, System.put_stages_of_ne hc]

theorem Inv.wake {r : R} {todo : List (Access I)} (h : Inv d s) (hs : s.stages c = .parked r i todo)
    (hread : c ∈ (s.slots i).readers) : Inv d (s.set c (.locking r todo)) := by
  have hf := h.fits c
  rw [Fits, hs] at hf
  obtain ⟨done, hdone, hhas | hhas⟩ := hf
  · exact absurd ((hhas.1 (i, .read)).mp hread) (not_mem_done hdone .read)
  · refine h.set ?_ fun i hd => absurd hd (System.not_drains hs nofun i)
    rw [Fits, System.set_stages]
    exact ⟨done ++ [(i, Mode.read)], by simp [hdone], hhas⟩

theorem Inv.announce {r : R} {todo : List (Access I)} (h : Inv d s)
    (hs : s.stages c = .locking r ((i, .write) :: todo)) (hfree : (s.slots i).writer = none) :
    Inv d (s.put c i ((s.slots i).announce c) (.draining r i todo)) := by
  have hf := h.fits c
  rw [Fits, hs] at hf
  obtain ⟨done, hdone, hhas⟩ := hf
  refine h.put ?_ (fun c' hc => ?_) (fun hnone => nomatch hnone) (fun c' hwriter hd => ?_)
    (System.not_drains hs nofun)
  · rw [Fits, System.put_stages]
    refine ⟨done, hdone, hhas.put (fun mode => ?_) (fun a ha => ?_) (hhas.2 i) fun _ _ => .rfl⟩
    · cases mode with
      | read =>
          have hread := hhas.1 (i, .read)
          simpa [RWMutex.announce, System.Owns, RWMutex.Owns] using hread
      | write => simp [RWMutex.Owns, RWMutex.announce]
    · simp only [List.mem_append, List.mem_singleton, or_iff_left_iff_imp]
      rintro rfl
      exact absurd rfl ha
  · refine (h.fits c').put hc (fun mode => ?_) .rfl
    cases mode with
    | read => exact .rfl
    | write => simp [RWMutex.Owns, RWMutex.announce, hfree, Ne.symm hc]
  · obtain rfl : c = c' := by simpa [RWMutex.announce] using hwriter
    exact absurd ⟨r, todo, System.put_stages⟩ hd

theorem Inv.drained {r : R} {todo : List (Access I)} (h : Inv d s)
    (hs : s.stages c = .draining r i todo) (hfree : (s.slots i).readers = ∅) :
    Inv d (s.set c (.locking r todo)) := by
  have hf := h.fits c
  rw [Fits, hs] at hf
  obtain ⟨done, hdone, hhas⟩ := hf
  refine h.set ?_ fun j hd => ?_
  · rw [Fits, System.set_stages]
    exact ⟨done ++ [(i, Mode.write)], by simp [hdone], hhas⟩
  · obtain ⟨r', todo', hd⟩ := hd
    rw [hs] at hd
    cases hd
    exact hfree

theorem Inv.locked {r : R} (h : Inv d s) (hs : s.stages c = .locking r []) :
    Inv d (s.set c (.holding r)) := by
  have hf := h.fits c
  rw [Fits, hs] at hf
  obtain ⟨done, hdone, hhas⟩ := hf
  refine h.set ?_ fun i hd => absurd hd (System.not_drains hs nofun i)
  rw [Fits, System.set_stages]
  have hall : s.Has c (d.acquire r) none := by
    rw [hdone, List.append_nil]
    exact hhas
  exact hall

theorem Inv.unlockAll {r : R} (h : Inv d s) (hs : s.stages c = .holding r) :
    Inv d (s.set c (.unlocking r (d.release r))) := by
  have hf := h.fits c
  rw [Fits, hs] at hf
  refine h.set ?_ fun i hd => absurd hd (System.not_drains hs nofun i)
  rw [Fits, System.set_stages]
  exact ⟨[], rfl, fun a => (hf.1 a).trans (d.perm r).mem_iff.symm, hf.2⟩

theorem Inv.rUnlock {r : R} {todo : List (Access I)} (h : Inv d s)
    (hs : s.stages c = .unlocking r ((i, .read) :: todo)) :
    Inv d (s.put c i ((s.slots i).rUnlock c) (.unlocking r todo)) := by
  have hf := h.fits c
  rw [Fits, hs] at hf
  obtain ⟨released, hreleased, hhas⟩ := hf
  have hnot := System.not_drains hs nofun
  refine h.put ?_ (fun c' hc => ?_) (h.waiting i) (fun c' hw hd => ?_) hnot
  · rw [Fits, System.put_stages]
    refine ⟨released ++ [(i, .read)], by simp [hreleased],
      hhas.put (fun mode => ?_) (fun a ha => ?_) (hhas.2 i) fun _ _ => .rfl⟩
    · cases mode with
      | read => simpa [RWMutex.Owns, RWMutex.rUnlock] using not_mem_todo hreleased .read
      | write =>
          have hwrite := hhas.1 (i, .write)
          simpa [RWMutex.rUnlock, System.Owns, RWMutex.Owns] using hwrite
    · simp only [List.mem_cons, iff_or_self]
      rintro rfl
      exact absurd rfl ha
  · refine (h.fits c').put hc (fun mode => ?_) .rfl
    cases mode with
    | read => simp [RWMutex.Owns, RWMutex.rUnlock, hc]
    | write => exact .rfl
  · have hempty : (s.slots i).readers = ∅ := by
      refine h.readers i c' hw fun hd' => hd ?_
      by_cases hc : c' = c
      · exact absurd (hc ▸ hd') (hnot i)
      · rwa [System.Drains, System.put_stages_of_ne hc]
    simp [RWMutex.rUnlock, hempty]

/-- A reader that waited for the writer has the lock with its end. -/
theorem Fits.granted (h : Fits d s c') (hne : c' ≠ c) (hwriter : (s.slots i).writer = some c)
    (hwaiting : c' ∈ (s.slots i).waiting) : Fits d (s.put c i (s.slots i).unlock stage) c' := by
  rw [Fits] at h
  cases hs : s.stages c' with
  | parked r j todo =>
      rw [hs] at h
      obtain ⟨done, hdone, hhas | hhas⟩ := h
      · obtain rfl : j = i := by simpa using (hhas.2 i).mp hwaiting
        rw [Fits, System.put_stages_of_ne hne, hs]
        refine ⟨done, hdone, .inr (hhas.put (fun mode => ?_) (fun a ha => ?_) ?_ fun k hk => ?_)⟩
        · cases mode with
          | read => simp [RWMutex.Owns, RWMutex.unlock, hwaiting]
          | write =>
              have hwrite : (j, Mode.write) ∉ done := not_mem_done hdone .write
              simp [RWMutex.Owns, RWMutex.unlock, hwrite]
        · simp only [List.mem_append, List.mem_singleton, or_iff_left_iff_imp]
          rintro rfl
          exact absurd rfl ha
        · simp [RWMutex.unlock]
        · simp [Ne.symm hk]
      · exact absurd ((hhas.2 i).mp hwaiting) (by simp)
  | idle =>
      rw [hs] at h
      exact absurd ((h.2 i).mp hwaiting) (by simp)
  | locking r todo =>
      rw [hs] at h
      obtain ⟨done, -, hhas⟩ := h
      exact absurd ((hhas.2 i).mp hwaiting) (by simp)
  | draining r j todo =>
      rw [hs] at h
      obtain ⟨done, -, hhas⟩ := h
      exact absurd ((hhas.2 i).mp hwaiting) (by simp)
  | holding r =>
      rw [hs] at h
      exact absurd ((h.2 i).mp hwaiting) (by simp)
  | unlocking r todo =>
      rw [hs] at h
      obtain ⟨released, -, hhas⟩ := h
      exact absurd ((hhas.2 i).mp hwaiting) (by simp)

theorem Inv.unlock {r : R} {todo : List (Access I)} (h : Inv d s)
    (hs : s.stages c = .unlocking r ((i, .write) :: todo)) :
    Inv d (s.put c i (s.slots i).unlock (.unlocking r todo)) := by
  have hf := h.fits c
  rw [Fits, hs] at hf
  obtain ⟨released, hreleased, hhas⟩ := hf
  have hwriter : (s.slots i).writer = some c := (hhas.1 (i, .write)).mpr List.mem_cons_self
  have hwaiting : c ∉ (s.slots i).waiting := fun hw => absurd ((hhas.2 i).mp hw) (by simp)
  refine h.put ?_ (fun c' hc => ?_) (fun _ => rfl) (fun c' hw => nomatch hw)
    (System.not_drains hs nofun)
  · rw [Fits, System.put_stages]
    refine ⟨released ++ [(i, .write)], by simp [hreleased],
      hhas.put (fun mode => ?_) (fun a ha => ?_) (by simp [RWMutex.unlock]) fun _ _ => .rfl⟩
    · cases mode with
      | read =>
          have hread := hhas.1 (i, .read)
          simpa [RWMutex.unlock, System.Owns, RWMutex.Owns, hwaiting] using hread
      | write => simpa [RWMutex.Owns, RWMutex.unlock] using not_mem_todo hreleased .write
    · simp only [List.mem_cons, iff_or_self]
      rintro rfl
      exact absurd rfl ha
  · by_cases hw : c' ∈ (s.slots i).waiting
    · exact (h.fits c').granted hc hwriter hw
    · refine (h.fits c').put hc (fun mode => ?_) (by simp [RWMutex.unlock, hw])
      cases mode with
      | read => simp [RWMutex.Owns, RWMutex.unlock, hw]
      | write => simp [RWMutex.Owns, RWMutex.unlock, hwriter, Ne.symm hc]

theorem Inv.unlocked {r : R} (h : Inv d s) (hs : s.stages c = .unlocking r []) :
    Inv d (s.set c .idle) := by
  have hf := h.fits c
  rw [Fits, hs] at hf
  obtain ⟨released, -, hhas⟩ := hf
  refine h.set ?_ fun i hd => absurd hd (System.not_drains hs nofun i)
  rw [Fits, System.set_stages]
  exact hhas

theorem Inv.step {s' : System ι I R} (h : Inv d s) (hstep : Step d c s s') : Inv d s' := by
  cases hstep with
  | lockAll r hs => exact h.lockAll hs
  | rLock r i todo hs hfree => exact h.rLock hs hfree
  | park r i todo hs hwriter => exact h.park hs hwriter
  | wake r i todo hs hread => exact h.wake hs hread
  | announce r i todo hs hfree => exact h.announce hs hfree
  | drained r i todo hs hfree => exact h.drained hs hfree
  | locked r hs => exact h.locked hs
  | unlockAll r hs => exact h.unlockAll hs
  | rUnlock r i todo hs => exact h.rUnlock hs
  | unlock r i todo hs => exact h.unlock hs
  | unlocked r hs => exact h.unlocked hs

theorem inv_of_reachable (h : Reachable d s) : Inv d s := by
  induction h with
  | refl => exact inv_initial
  | tail _ hstep ih =>
      obtain ⟨c, hstep⟩ := hstep
      exact ih.step hstep

/-- The client holds the lock, with no reader left where it writes. -/
def System.Holds (s : System ι I R) (c : ι) (a : Access I) : Prop :=
  s.Owns c a ∧ (a.2 = .write → ¬ s.Drains c a.1)

def CanStep (d : Discipline I R) (s : System ι I R) : Prop :=
  ∃ c, s.stages c ≠ .idle ∧ ∃ s', Step d c s s'

theorem CanStep.of_stage (hs : s.stages c = stage) (hstage : stage ≠ .idle) {s' : System ι I R}
    (h : Step d c s s') : CanStep d s := ⟨c, hs ▸ hstage, s', h⟩

def Stage.next : Stage I R → Option I
  | .locking _ (a :: _) => some a.1
  | .parked _ i _ | .draining _ i _ => some i
  | _ => none

theorem canStep_of_next (hbusy : s.stages c ≠ .idle) (hnext : (s.stages c).next = none) :
    CanStep d s := by
  refine ⟨c, hbusy, ?_⟩
  cases hs : s.stages c with
  | idle => exact absurd hs hbusy
  | locking r todo =>
      cases todo with
      | nil => exact ⟨_, .locked r hs⟩
      | cons a todo => simp [hs, Stage.next] at hnext
  | parked r i todo => simp [hs, Stage.next] at hnext
  | draining r i todo => simp [hs, Stage.next] at hnext
  | holding r => exact ⟨_, .unlockAll r hs⟩
  | unlocking r todo =>
      rcases todo with _ | ⟨⟨i, mode⟩, todo⟩
      · exact ⟨_, .unlocked r hs⟩
      · cases mode with
        | read => exact ⟨_, .rUnlock r i todo hs⟩
        | write => exact ⟨_, .unlock r i todo hs⟩

/-- Who holds a slot either can go on, or is about to lock a later one. -/
theorem Inv.holder (h : Inv d s) {a : Access I} (ha : s.Holds c a) :
    CanStep d s ∨ ∃ j, (s.stages c).next = some j ∧ a.1 < j := by
  have hf := h.fits c
  have hlater {r : R} {done todo : List (Access I)} {b : Access I}
      (hdone : d.acquire r = done ++ b :: todo) (hmem : a ∈ done) : a.1 < b.1 :=
    (List.pairwise_append.mp (hdone ▸ d.ascending r)).2.2 a hmem b List.mem_cons_self
  rw [Fits] at hf
  cases hs : s.stages c with
  | idle =>
      rw [hs] at hf
      exact absurd ((hf.1 a).mp ha.1) List.not_mem_nil
  | locking r todo =>
      rw [hs] at hf
      obtain ⟨done, hdone, hhas⟩ := hf
      cases todo with
      | nil => exact .inl (canStep_of_next (c := c) (by simp [hs]) (by simp [hs, Stage.next]))
      | cons b todo => exact .inr ⟨b.1, rfl, hlater hdone ((hhas.1 a).mp ha.1)⟩
  | parked r i todo =>
      rw [hs] at hf
      obtain ⟨done, hdone, hhas | hhas⟩ := hf
      · exact .inr ⟨i, rfl, hlater hdone ((hhas.1 a).mp ha.1)⟩
      · refine .inl (.of_stage hs nofun (.wake r i todo hs ?_))
        exact (hhas.1 (i, .read)).mpr (by simp)
  | draining r i todo =>
      rw [hs] at hf
      obtain ⟨done, hdone, hhas⟩ := hf
      have hmem := (hhas.1 a).mp ha.1
      rw [List.mem_append, List.mem_singleton] at hmem
      rcases hmem with hmem | rfl
      · exact .inr ⟨i, rfl, hlater hdone hmem⟩
      · exact absurd ⟨r, todo, hs⟩ (ha.2 rfl)
  | holding r | unlocking r todo =>
      exact .inl (canStep_of_next (c := c) (by simp [hs]) (by simp [hs, Stage.next]))

/-- Waiting leads to later and later slots, and so to a client that does not wait. -/
theorem Inv.progress_of_next [WellFoundedGT I] (h : Inv d s) (hnext : (s.stages c).next = some i) :
    CanStep d s := by
  induction i using WellFoundedGT.induction generalizing c with
  | ind i ih =>
      have hholder {c' : ι} {mode : Mode} (ha : s.Holds c' (i, mode)) : CanStep d s := by
        rcases h.holder ha with hstep | ⟨j, hj, hlt⟩
        · exact hstep
        · exact ih j hlt hj
      have hdraining {c' : ι} {r : R} {todo : List (Access I)}
          (hs : s.stages c' = .draining r i todo) : CanStep d s := by
        by_cases hempty : (s.slots i).readers = ∅
        · exact .of_stage hs nofun (.drained r i todo hs hempty)
        · obtain ⟨c'', hc''⟩ := Finset.nonempty_iff_ne_empty.mpr hempty
          exact hholder (show s.Holds c'' (i, .read) from ⟨hc'', nofun⟩)
      have hwriter (hne : (s.slots i).writer ≠ none) : CanStep d s := by
        obtain ⟨c', hc'⟩ := Option.ne_none_iff_exists'.mp hne
        by_cases hd : s.Drains c' i
        · obtain ⟨r, todo, hs⟩ := hd
          exact hdraining hs
        · exact hholder (show s.Holds c' (i, .write) from ⟨hc', fun _ => hd⟩)
      cases hs : s.stages c with
      | locking r todo =>
          rw [hs] at hnext
          obtain _ | ⟨⟨j, mode⟩, todo⟩ := todo
          · cases hnext
          obtain rfl : j = i := Option.some.inj hnext
          by_cases hfree : (s.slots j).writer = none
          · cases mode with
            | read => exact .of_stage hs nofun (.rLock r j todo hs hfree)
            | write => exact .of_stage hs nofun (.announce r j todo hs hfree)
          · exact hwriter hfree
      | parked r j todo =>
          rw [hs] at hnext
          obtain rfl : j = i := Option.some.inj hnext
          by_cases hfree : (s.slots j).writer = none
          · have hf := h.fits c
            rw [Fits, hs] at hf
            obtain ⟨done, -, hhas | hhas⟩ := hf
            · have hwait := (hhas.2 j).mpr rfl
              rw [h.waiting j hfree] at hwait
              exact absurd hwait (Finset.notMem_empty c)
            · refine .of_stage hs nofun (.wake r j todo hs ?_)
              exact (hhas.1 (j, .read)).mpr (by simp)
          · exact hwriter hfree
      | draining r j todo =>
          rw [hs] at hnext
          obtain rfl : j = i := Option.some.inj hnext
          exact hdraining hs
      | idle | holding r | unlocking r todo =>
          rw [hs] at hnext
          cases hnext

/-- There is no deadlock. -/
theorem Inv.progress [WellFoundedGT I] (h : Inv d s) (hbusy : ∃ c, s.stages c ≠ .idle) : CanStep d s := by
  obtain ⟨c, hbusy⟩ := hbusy
  cases hnext : (s.stages c).next with
  | some i => exact h.progress_of_next hnext
  | none => exact canStep_of_next hbusy hnext

omit [DecidableEq ι] in
/-- Who writes at a slot is alone there. -/
theorem Inv.exclusive (h : Inv d s) (hne : c ≠ c') (hwrite : s.Holds c (i, .write)) (mode : Mode) :
    ¬ s.Owns c' (i, mode) := by
  cases mode with
  | read =>
      have hempty := h.readers i c hwrite.1 (hwrite.2 rfl)
      simp [System.Owns, RWMutex.Owns, hempty]
  | write =>
      intro hother
      exact hne (Option.some.inj (hwrite.1.symm.trans hother))

end

end Traitor.Lib.LockOrder
