import Traitor.Lib.LateAnswers

namespace Traitor.Lib.TwoPhase

open LockOrder

variable {I κ D Ω R E P A B ι : Type} [LinearOrder I]

section

variable {p : Protocol I κ D Ω R E P A} {shown : Ω → A → B} {q q' : P} {w w' : Ω} {c : ι} {r : R} {b : B}

/-- A request that is answered after one step takes no other one. -/
theorem Goes.once (honce : ∀ e, p.answer (p.advance e q w).1 ≠ none) (h : Goes p q w q' w') :
    (q' = q ∧ w' = w) ∨ ∃ e, q' = (p.advance e q w).1 ∧ w' = (p.advance e q w).2 := by
  induction h with
  | refl => exact .inl ⟨rfl, rfl⟩
  | step e h hanswer ih =>
      rcases ih with ⟨rfl, rfl⟩ | ⟨e', rfl, rfl⟩
      · exact .inr ⟨e, rfl, rfl⟩
      · exact absurd hanswer (honce e')

theorem SerialShown.snoc_inv (log : List (ι × R × B)) (h : SerialShown p shown w (log ++ [(c, r, b)]) w') :
    ∃ v q a, SerialShown p shown w log v ∧ Goes p (p.start r) (p.enter r v) q w' ∧ p.answer q = some a ∧
      b = shown w' a := by
  generalize hlog : log ++ [(c, r, b)] = l at h
  cases h with
  | nil => simp at hlog
  | snoc c' r' a h hgoes ha =>
      obtain ⟨rfl, heq⟩ := List.append_inj' hlog rfl
      cases heq
      exact ⟨_, _, a, h, hgoes, ha, rfl⟩

theorem SerialShown.nil_inv (h : SerialShown p shown w ([] : List (ι × R × B)) w') : w' = w := by
  generalize hlog : ([] : List (ι × R × B)) = l at h
  cases h with
  | nil => rfl
  | snoc => simp at hlog

end

section

variable {c : ι} {l l' : List (Access I)} {i j : I} {mode : Mode}

/-- The slots when one client owns these and no other client is there. -/
def owned (c : ι) (l : List (Access I)) (i : I) : RWMutex ι :=
  if (i, .write) ∈ l then ⟨∅, some c, ∅⟩ else if (i, .read) ∈ l then ⟨{c}, none, ∅⟩ else .free

theorem owned_of_ne (h : j ≠ i) : owned c ((i, mode) :: l) j = owned c l j := by simp [owned, h]

theorem owned_perm (h : l.Perm l') : owned c l = owned c l' := by
  funext i
  simp only [owned, h.mem_iff]

theorem owned_free (h : i ∉ l.map Prod.fst) : owned c l i = .free := by
  have hfresh (mode : Mode) : (i, mode) ∉ l := fun hmem => h (List.mem_map_of_mem hmem)
  rw [owned, if_neg (hfresh _), if_neg (hfresh _)]

theorem owned_read (h : i ∉ l.map Prod.fst) : owned c ((i, .read) :: l) i = ⟨{c}, none, ∅⟩ := by
  have hfresh : (i, Mode.write) ∉ l := fun hmem => h (List.mem_map_of_mem hmem)
  simp [owned, hfresh]

theorem owned_write : owned c ((i, .write) :: l) i = ⟨∅, some c, ∅⟩ := if_pos List.mem_cons_self

theorem update_owned {m : RWMutex ι} (hm : m = owned c ((i, mode) :: l) i) :
    Function.update (owned c l) i m = owned c ((i, mode) :: l) := by
  funext j
  by_cases hj : j = i
  · subst hj
    rw [Function.update_self, hm]
  · rw [Function.update_of_ne hj, owned_of_ne hj]

theorem update_owned_free (mode : Mode) (h : i ∉ l.map Prod.fst) :
    Function.update (owned c ((i, mode) :: l)) i .free = owned c l := by
  funext j
  by_cases hj : j = i
  · subst hj
    rw [Function.update_self, owned_free h]
  · rw [Function.update_of_ne hj, owned_of_ne hj]

end

section

variable [DecidableEq ι] {d : Discipline I R} {c : ι} {r : R} {l todo : List (Access I)} {i : I}
  {stages : ι → Stage I R}

theorem rLock_owned (h : stages c = .locking r ((i, .read) :: todo)) (hi : i ∉ l.map Prod.fst) :
    LockOrder.Step d c ⟨owned c l, stages⟩ ⟨owned c ((i, .read) :: l), Function.update stages c (.locking r todo)⟩ := by
  have hm : (owned c l i).rLock c = owned c ((i, .read) :: l) i := by
    rw [owned_free hi, owned_read hi]
    rfl
  rw [← update_owned hm]
  exact .rLock r i todo h (congrArg RWMutex.writer (owned_free hi))

theorem announce_owned (h : stages c = .locking r ((i, .write) :: todo)) (hi : i ∉ l.map Prod.fst) :
    LockOrder.Step d c ⟨owned c l, stages⟩ ⟨owned c ((i, .write) :: l), Function.update stages c (.draining r i todo)⟩ := by
  have hm : (owned c l i).announce c = owned c ((i, .write) :: l) i := by
    rw [owned_free hi, owned_write]
    rfl
  rw [← update_owned hm]
  exact .announce r i todo h (congrArg RWMutex.writer (owned_free hi))

theorem rUnlock_owned (h : stages c = .unlocking r ((i, .read) :: todo)) (hi : i ∉ l.map Prod.fst) :
    LockOrder.Step d c ⟨owned c ((i, .read) :: l), stages⟩ ⟨owned c l, Function.update stages c (.unlocking r todo)⟩ := by
  have hm : (owned c ((i, .read) :: l) i).rUnlock c = .free := by
    rw [owned_read hi, RWMutex.rUnlock, Finset.erase_singleton]
    rfl
  rw [← update_owned_free .read hi, ← hm]
  exact .rUnlock r i todo h

theorem unlock_owned (h : stages c = .unlocking r ((i, .write) :: todo)) (hi : i ∉ l.map Prod.fst) :
    LockOrder.Step d c ⟨owned c ((i, .write) :: l), stages⟩ ⟨owned c l, Function.update stages c (.unlocking r todo)⟩ := by
  have hm : (owned c ((i, .write) :: l) i).unlock = .free := by
    rw [owned_write]
    rfl
  rw [← update_owned_free .write hi, ← hm]
  exact .unlock r i todo h

end

variable [DecidableEq ι] {p : Protocol I κ D Ω R E P A} {admitted : R → Prop} {shown : Ω → A → B} {c : ι} {r : R}
  {q q' : P} {a : A} {w w' : Ω} {stages : ι → Stage I R} {progress : ι → Option P} {log : List (ι × R × A)}
  {f : ℕ → Option B}

def Desk.Steps (p : Protocol I κ D Ω R E P A) (admitted : R → Prop) (shown : Ω → A → B) (c : ι) :
    Desk ι I Ω R P A B → Desk ι I Ω R P A B → Prop :=
  Relation.ReflTransGen (Desk.Step p admitted shown c)

theorem Desk.Reachable.steps {d d' : Desk ι I Ω R P A B} (h : Desk.Reachable p admitted shown w d)
    (h' : Desk.Steps p admitted shown c d d') : Desk.Reachable p admitted shown w d' := by
  induction h' with
  | refl => exact h
  | tail _ hstep ih => exact ih.tail ⟨c, hstep⟩

/-- A step of a client that has begun. -/
theorem Desk.Steps.busy {s t : Site ι I Ω R P A} (h : TwoPhase.Step p admitted c s t)
    (hidle : s.locks.stages c ≠ .idle) : Desk.Steps p admitted shown c ⟨s, f⟩ ⟨t, f⟩ :=
  .single (.work t h fun hc => absurd hc hidle)

theorem Desk.Steps.lock {slots slots' : I → RWMutex ι} {stages' : ι → Stage I R} {stage : Stage I R}
    (hstage : stages c = stage) (hidle : stage ≠ .idle) (hholding : ∀ r, stage ≠ .holding r)
    (h : LockOrder.Step p.discipline c ⟨slots, stages⟩ ⟨slots', stages'⟩) :
    Desk.Steps p admitted shown c ⟨⟨⟨slots, stages⟩, w, progress, log⟩, f⟩
      ⟨⟨⟨slots', stages'⟩, w, progress, log⟩, f⟩ := by
  subst hstage
  exact .busy (.lock ⟨slots', stages'⟩ h hidle hholding) hidle

theorem lock_alone (todo l : List (Access I)) (hstage : stages c = .locking r todo)
    (hslots : ((todo.reverse ++ l).map Prod.fst).Nodup) :
    Desk.Steps p admitted shown c ⟨⟨⟨owned c l, stages⟩, w, progress, log⟩, f⟩
      ⟨⟨⟨owned c (todo.reverse ++ l), Function.update stages c (.holding r)⟩, w, progress, log⟩, f⟩ := by
  induction todo generalizing l stages with
  | nil => exact .lock hstage (by simp) (by simp) (.locked r hstage)
  | cons a todo ih =>
      obtain ⟨i, mode⟩ := a
      rw [List.reverse_cons, List.append_assoc, List.singleton_append] at hslots ⊢
      have hrest : (((i, mode) :: l).map Prod.fst).Nodup := hslots.sublist ((List.sublist_append_right _ _).map _)
      have hi : i ∉ l.map Prod.fst := (List.nodup_cons.mp hrest).1
      have hsteps := @ih (Function.update stages c (.locking r todo)) _ (Function.update_self _ _ _) hslots
      rw [Function.update_idem] at hsteps
      apply Relation.ReflTransGen.trans ?_ hsteps
      cases mode with
      | read => exact Desk.Steps.lock hstage (by simp) (by simp) (rLock_owned hstage hi)
      | write =>
          let draining := Function.update stages c (.draining r i todo)
          have hdraining : draining c = .draining r i todo := Function.update_self _ _ _
          have hdrained : LockOrder.Step p.discipline c ⟨owned c ((i, .write) :: l), draining⟩ _ :=
            .drained r i todo hdraining (congrArg RWMutex.readers owned_write)
          rw [System.set, Function.update_idem] at hdrained
          exact (Desk.Steps.lock hstage (by simp) (by simp) (announce_owned hstage hi)).trans
            (Desk.Steps.lock hdraining (by simp) (by simp) hdrained)

theorem unlock_alone (todo : List (Access I)) (hstage : stages c = .unlocking r todo)
    (hslots : (todo.map Prod.fst).Nodup) :
    Desk.Steps p admitted shown c ⟨⟨⟨owned c todo, stages⟩, w, progress, log⟩, f⟩
      ⟨⟨⟨fun _ => .free, Function.update stages c .idle⟩, w, progress, log⟩, f⟩ := by
  induction todo generalizing stages with
  | nil => exact .lock hstage (by simp) (by simp) (.unlocked r hstage)
  | cons a todo ih =>
      obtain ⟨i, mode⟩ := a
      obtain ⟨hi, hrest⟩ := List.nodup_cons.mp hslots
      have hsteps := @ih (Function.update stages c (.unlocking r todo)) (Function.update_self _ _ _) hrest
      rw [Function.update_idem] at hsteps
      apply Relation.ReflTransGen.trans ?_ hsteps
      cases mode with
      | read => exact Desk.Steps.lock hstage (by simp) (by simp) (rUnlock_owned hstage hi)
      | write => exact Desk.Steps.lock hstage (by simp) (by simp) (unlock_owned hstage hi)

theorem run_alone {locks : System ι I R} (hgoes : Goes p q w q' w') (hstage : locks.stages c = .holding r)
    (hprogress : progress c = some q) :
    Desk.Steps p admitted shown c ⟨⟨locks, w, progress, log⟩, f⟩
      ⟨⟨locks, w', Function.update progress c (some q'), log⟩, f⟩ := by
  induction hgoes with
  | refl =>
      rw [← hprogress, Function.update_eq_self]
      exact .refl
  | @step q' w' e _ hanswer ih =>
      have hstep : TwoPhase.Step p admitted c ⟨locks, w', Function.update progress c (some q'), log⟩ _ :=
        .run e r q' hstage (Function.update_self _ _ _) hanswer
      rw [Function.update_idem] at hstep
      exact ih.trans (Desk.Steps.busy hstep fun hidle => by rw [hstage] at hidle; cases hidle)

/-- A request is begun and answered while no other client is there. -/
theorem answer_alone (hidle : stages c = .idle)
    (hshown : ∀ (i : ℕ) r a, log[i]? = some (c, r, a) → f i ≠ none) (hr : admitted r)
    (hgoes : Goes p (p.start r) (p.enter r w) q w') (ha : p.answer q = some a) :
    Desk.Steps p admitted shown c ⟨⟨⟨fun _ => .free, stages⟩, w, progress, log⟩, f⟩
      ⟨⟨⟨fun _ => .free, stages⟩, w', Function.update progress c (some q), log ++ [(c, r, a)]⟩, f⟩ := by
  have hnodup : ((p.discipline.acquire r).map Prod.fst).Nodup :=
    List.pairwise_map.mpr ((p.discipline.ascending r).imp fun h => ne_of_lt h)
  let locking := Function.update stages c (.locking r (p.discipline.acquire r))
  let holding := Function.update stages c (.holding r)
  let unlocking := Function.update stages c (.unlocking r (p.discipline.release r))
  have hbegin : Desk.Steps p admitted shown c ⟨⟨⟨fun _ => .free, stages⟩, w, progress, log⟩, f⟩
      ⟨⟨⟨owned c [], locking⟩, p.enter r w, Function.update progress c (some (p.start r)), log⟩, f⟩ :=
    .single (.work _ (.begin r hr hidle) fun _ => hshown)
  have hlock : Desk.Steps p admitted shown c
      ⟨⟨⟨owned c [], locking⟩, p.enter r w, Function.update progress c (some (p.start r)), log⟩, f⟩ _ :=
    lock_alone (p.discipline.acquire r) [] (Function.update_self _ _ _) (by
      rw [List.append_nil, List.map_reverse, List.nodup_reverse]
      exact hnodup)
  rw [List.append_nil, owned_perm ((List.reverse_perm _).trans (p.discipline.perm r).symm),
    Function.update_idem] at hlock
  have hrun : Desk.Steps p admitted shown c ⟨⟨⟨owned c (p.discipline.release r), holding⟩, p.enter r w,
      Function.update progress c (some (p.start r)), log⟩, f⟩ _ :=
    run_alone hgoes (Function.update_self _ _ _) (Function.update_self _ _ _)
  rw [Function.update_idem] at hrun
  have hfinish : TwoPhase.Step p admitted c
      ⟨⟨owned c (p.discipline.release r), holding⟩, w', Function.update progress c (some q), log⟩ _ :=
    .finish r q a (Function.update_self _ _ _) (Function.update_self _ _ _) ha
  rw [System.set, Function.update_idem] at hfinish
  have hunlock : Desk.Steps p admitted shown c ⟨⟨⟨owned c (p.discipline.release r), unlocking⟩, w',
      Function.update progress c (some q), log ++ [(c, r, a)]⟩, f⟩ _ :=
    unlock_alone (p.discipline.release r) (Function.update_self _ _ _)
      (((p.discipline.perm r).map Prod.fst).nodup_iff.mpr hnodup)
  rw [Function.update_idem, ← hidle, Function.update_eq_self] at hunlock
  exact (((hbegin.trans hlock).trans hrun).trans (Desk.Steps.busy hfinish (by simp [holding]))).trans hunlock

end Traitor.Lib.TwoPhase
