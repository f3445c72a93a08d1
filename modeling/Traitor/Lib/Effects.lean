import Mathlib.Order.Defs.Unbundled
import Mathlib.Tactic.Common

namespace Traitor.Lib.Effects

variable {S T α β : Type}

/-- A program over a state that may panic. What it did before the panic stays. -/
abbrev Program (S α : Type) := EStateM Unit S α

def panics : Program S α := throw ()

/-- The postcondition sees the value, which is none after a panic, and the state. -/
def wp (m : Program S α) (Q : Option α → S → Prop) (s : S) : Prop :=
  match m s with
  | .ok a t => Q (some a) t
  | .error _ t => Q none t

theorem wp_mono {m : Program S α} {Q Q' : Option α → S → Prop} {s : S} (h : wp m Q s)
    (hQ : ∀ r t, Q r t → Q' r t) : wp m Q' s := by
  rw [wp] at h ⊢
  cases hm : m s with
  | ok a t => exact hQ _ _ (by simpa [hm] using h)
  | error e t => exact hQ _ _ (by simpa [hm] using h)

@[simp] theorem wp_pure (a : α) (Q : Option α → S → Prop) (s : S) :
    wp (pure a) Q s = Q (some a) s := rfl

@[simp] theorem wp_panics (Q : Option α → S → Prop) (s : S) :
    wp (panics : Program S α) Q s = Q none s := rfl

@[simp] theorem wp_bind (m : Program S α) (f : α → Program S β) (Q : Option β → S → Prop)
    (s : S) : wp (m >>= f) Q s = wp m (fun r t => match r with
      | some a => wp (f a) Q t
      | none => Q none t) s := by
  simp only [wp, bind, EStateM.bind]
  cases m s <;> rfl

@[simp] theorem wp_map (f : α → β) (m : Program S α) (Q : Option β → S → Prop) (s : S) :
    wp (f <$> m) Q s = wp m (fun r t => Q (r.map f) t) s := by
  simp only [wp, Functor.map, EStateM.map]
  cases m s <;> rfl

@[simp] theorem wp_get (Q : Option S → S → Prop) (s : S) :
    wp (get : Program S S) Q s = Q (some s) s := rfl

@[simp] theorem wp_set (t : S) (Q : Option PUnit → S → Prop) (s : S) :
    wp (set t : Program S PUnit) Q s = Q (some ⟨⟩) t := rfl

@[simp] theorem wp_modify (f : S → S) (Q : Option PUnit → S → Prop) (s : S) :
    wp (modify f : Program S PUnit) Q s = Q (some ⟨⟩) (f s) := rfl

@[simp] theorem wp_ite (c : Prop) [Decidable c] (m m' : Program S α) (Q : Option α → S → Prop)
    (s : S) : wp (if c then m else m') Q s = if c then wp m Q s else wp m' Q s := by
  split <;> rfl

def value (m : Program S α) (s : S) : Option α :=
  match m s with
  | .ok a _ => some a
  | .error _ _ => none

def final (m : Program S α) (s : S) : S :=
  match m s with
  | .ok _ t => t
  | .error _ t => t

theorem wp_iff (m : Program S α) (Q : Option α → S → Prop) (s : S) :
    wp m Q s ↔ Q (value m s) (final m s) := by
  rw [wp, value, final]
  cases m s <;> rfl

/-- A run that is known to its end. -/
theorem wp_of_run {m : Program S α} {Q : Option α → S → Prop} {r : Option α} {s t : S}
    (h : wp m (fun r' t' => r' = r ∧ t' = t) s) : wp m Q s ↔ Q r t := by
  rw [wp_iff] at h ⊢
  rw [h.1, h.2]

theorem value_pure (a : α) (s : S) : value (pure a : Program S α) s = some a := rfl

theorem final_pure (a : α) (s : S) : final (pure a : Program S α) s = s := rfl

theorem value_bind (m : Program S α) (f : α → Program S β) (s : S) :
    value (m >>= f) s = (value m s).bind fun a => value (f a) (final m s) := by
  simp only [value, final, bind, EStateM.bind]
  cases m s <;> rfl

theorem final_bind (m : Program S α) (f : α → Program S β) (s : S) :
    final (m >>= f) s = match value m s with
      | some a => final (f a) (final m s)
      | none => final m s := by
  simp only [value, final, bind, EStateM.bind]
  cases m s <;> rfl

def Runs (m : Program S α) (s : S) (a : α) (t : S) : Prop := m s = .ok a t

namespace Runs

variable {m : Program S α} {f : α → Program S β} {s t u : S} {a : α} {b : β}

theorem pure (a : α) (s : S) : Runs (Pure.pure a) s a s := rfl

theorem of_modify (f : S → S) (s : S) : Runs (modify f) s ⟨⟩ (f s) := rfl

theorem bind (hm : Runs m s a t) (hf : Runs (f a) t b u) : Runs (m >>= f) s b u := by
  rw [Runs] at hm hf ⊢
  simp only [Bind.bind, EStateM.bind, hm, hf]

theorem value (h : Runs m s a t) : value m s = some a := by
  rw [Effects.value, h]

theorem final (h : Runs m s a t) : final m s = t := by
  rw [Effects.final, h]

theorem of_wp {Q : Option α → S → Prop} (h : Runs m s a t) (hm : wp m Q s) : Q (some a) t := by
  rwa [wp_iff, h.value, h.final] at hm

theorem of_value (h : Effects.value m s = some a) : Runs m s a (Effects.final m s) := by
  rw [Effects.value] at h
  rw [Runs, Effects.final]
  cases hm : m s with
  | ok b t =>
      rw [hm] at h
      rw [Option.some.inj h]
  | error e t =>
      rw [hm] at h
      exact absurd h.symm (Option.some_ne_none a)

theorem pure_iff {a' : α} : Runs (Pure.pure a) s a' t ↔ a' = a ∧ t = s := by
  constructor
  · intro h
    cases h
    exact ⟨rfl, rfl⟩
  · rintro ⟨rfl, rfl⟩
    exact pure _ _

theorem not_panics : ¬ Runs (panics : Program S α) s a t := fun h => by cases h

theorem unique {a' : α} {t' : S} (h : Runs m s a t) (h' : Runs m s a' t') : a' = a ∧ t' = t := by
  cases h.symm.trans h'
  exact ⟨rfl, rfl⟩

theorem bind_iff (hm : Runs m s a t) : Runs (m >>= f) s b u ↔ Runs (f a) t b u := by
  refine ⟨fun h => ?_, hm.bind⟩
  rw [Runs] at hm h ⊢
  simpa only [Bind.bind, EStateM.bind, hm] using h

theorem of_bind (h : Runs (m >>= f) s b u) : ∃ a t, Runs m s a t ∧ Runs (f a) t b u := by
  rw [Runs] at h
  simp only [Bind.bind, EStateM.bind] at h
  cases hm : m s with
  | ok a t =>
      rw [hm] at h
      exact ⟨a, t, hm, h⟩
  | error e t =>
      rw [hm] at h
      cases h

end Runs

def NeverPanics (m : Program S α) : Prop := ∀ s, ∃ a t, Runs m s a t

namespace NeverPanics

variable {m : Program S α} {f : α → Program S β}

theorem pure (a : α) : NeverPanics (Pure.pure a : Program S α) := fun s => ⟨a, s, .pure a s⟩

theorem bind (hm : NeverPanics m) (hf : ∀ a, NeverPanics (f a)) : NeverPanics (m >>= f) := by
  intro s
  obtain ⟨a, t, hrun⟩ := hm s
  obtain ⟨b, u, hrun'⟩ := hf a t
  exact ⟨b, u, hrun.bind hrun'⟩

theorem of_wp {r : S → α} (hm : ∀ s, wp m (fun a _ => a = some (r s)) s) : NeverPanics m :=
  fun s => ⟨r s, _, .of_value ((wp_iff m _ s).mp (hm s))⟩

/-- What the program leaves is what it is known to leave, panic or not. -/
theorem runs (hm : NeverPanics m) (s : S) : ∃ a, Runs m s a (Effects.final m s) := by
  obtain ⟨a, t, hrun⟩ := hm s
  exact ⟨a, hrun.final ▸ hrun⟩

end NeverPanics

/-- Every run moves along the relation, the ones that panic included. -/
def Moves (R : S → S → Prop) (m : Program S α) : Prop := ∀ s, wp m (fun _ t => R s t) s

namespace Moves

variable {R : S → S → Prop}

@[simp] theorem pure [Std.Refl R] (a : α) : Moves R (Pure.pure a : Program S α) :=
  fun s => Std.Refl.refl s

@[simp] theorem panics [Std.Refl R] : Moves R (Effects.panics : Program S α) :=
  fun s => Std.Refl.refl s

theorem bind [IsTrans S R] {m : Program S α} {f : α → Program S β} (hm : Moves R m)
    (hf : ∀ a, Moves R (f a)) : Moves R (m >>= f) := by
  intro s
  rw [wp_bind]
  apply wp_mono (hm s)
  intro r t ht
  cases r with
  | none => exact ht
  | some a => exact wp_mono (hf a t) fun _ _ h => trans_of R ht h

theorem map {m : Program S α} {f : α → β} (hm : Moves R m) : Moves R (f <$> m) := by
  intro s
  rw [wp_map]
  exact hm s

theorem final {m : Program S α} (hm : Moves R m) (s : S) : R s (Effects.final m s) :=
  (wp_iff m _ s).mp (hm s)

end Moves

/-- Runs from related states give the same value, and states that are related again. -/
def Relates (R : S → S → Prop) (Q : Option α → S → S → Prop) (m : Program S α) : Prop :=
  ∀ s t, R s t → value m s = value m t ∧ Q (value m s) (final m s) (final m t)

namespace Relates

variable {R : S → S → Prop} {Q : Option α → S → S → Prop}

theorem pure {a : α} (h : ∀ s t, R s t → Q (some a) s t) :
    Relates R Q (Pure.pure a : Program S α) := fun s t hst => ⟨rfl, h s t hst⟩

theorem panics (h : ∀ s t, R s t → Q none s t) : Relates R Q (Effects.panics : Program S α) :=
  fun s t hst => ⟨rfl, h s t hst⟩

theorem bind {m : Program S α} {f : α → Program S β} {Q' : Option β → S → S → Prop}
    (hm : Relates R Q m) (hf : ∀ a, Relates (Q (some a)) Q' (f a))
    (hnone : ∀ s t, Q none s t → Q' none s t) : Relates R Q' (m >>= f) := by
  intro s t hst
  obtain ⟨hvalue, hfinal⟩ := hm s t hst
  rw [value_bind, value_bind, final_bind, final_bind, ← hvalue]
  cases hv : value m s with
  | none =>
      rw [hv] at hfinal
      exact ⟨rfl, hnone _ _ hfinal⟩
  | some a =>
      rw [hv] at hfinal
      exact hf a _ _ hfinal

theorem mono {m : Program S α} {R' : S → S → Prop} {Q' : Option α → S → S → Prop}
    (hm : Relates R Q m) (hR : ∀ s t, R' s t → R s t) (hQ : ∀ r s t, Q r s t → Q' r s t) :
    Relates R' Q' m := fun s t hst =>
  ⟨(hm s t (hR s t hst)).1, hQ _ _ _ (hm s t (hR s t hst)).2⟩

end Relates

/-- Programs over different states end alike: both with values, related along with the states they leave, or
both in a panic. -/
def Pairs (Q : α → β → S → T → Prop) (P : S → T → Prop) (m : Program S α) (m' : Program T β) (s : S) (t : T) :
    Prop :=
  (∃ a b s' t', Runs m s a s' ∧ Runs m' t b t' ∧ Q a b s' t') ∨
    value m s = none ∧ value m' t = none ∧ P (final m s) (final m' t)

namespace Pairs

variable {Q : α → β → S → T → Prop} {P : S → T → Prop} {m : Program S α} {m' : Program T β} {s : S} {t : T}

theorem pure {a : α} {b : β} (h : Q a b s t) : Pairs Q P (Pure.pure a) (Pure.pure b) s t :=
  .inl ⟨a, b, s, t, .pure a s, .pure b t, h⟩

theorem panics (h : P s t) : Pairs Q P (Effects.panics : Program S α) (Effects.panics : Program T β) s t :=
  .inr ⟨rfl, rfl, h⟩

theorem of_modify {Q : PUnit → PUnit → S → T → Prop} {f : S → S} {g : T → T} (h : Q ⟨⟩ ⟨⟩ (f s) (g t)) :
    Pairs Q P (modify f) (modify g) s t :=
  .inl ⟨⟨⟩, ⟨⟩, f s, g t, .of_modify f s, .of_modify g t, h⟩

theorem bind {α' β' : Type} {Q' : α' → β' → S → T → Prop} {f : α → Program S α'} {g : β → Program T β'}
    (hm : Pairs Q P m m' s t) (hf : ∀ a b s' t', Q a b s' t' → Pairs Q' P (f a) (g b) s' t') :
    Pairs Q' P (m >>= f) (m' >>= g) s t := by
  rcases hm with ⟨a, b, s', t', hrun, hrun', hq⟩ | ⟨hnone, hnone', hp⟩
  · rcases hf a b s' t' hq with ⟨c, d, s'', t'', hf, hg, hq'⟩ | ⟨hnone, hnone', hp⟩
    · exact .inl ⟨c, d, s'', t'', hrun.bind hf, hrun'.bind hg, hq'⟩
    · right
      rw [value_bind, value_bind, final_bind, final_bind, hrun.value, hrun'.value, hrun.final, hrun'.final]
      exact ⟨hnone, hnone', hp⟩
  · right
    rw [value_bind, value_bind, final_bind, final_bind, hnone, hnone']
    exact ⟨rfl, rfl, hp⟩

theorem get_bind {f : S → Program S α} {g : T → Program T β} (h : Pairs Q P (f s) (g t) s t) :
    Pairs Q P (MonadState.get >>= f) (MonadState.get >>= g) s t := h

theorem runs_left {b : β} {t' : T} (h : Pairs Q P m m' s t) (hrun : Runs m' t b t') :
    ∃ a s', Runs m s a s' ∧ Q a b s' t' := by
  rcases h with ⟨a, _, s', _, hm, hm', hq⟩ | ⟨-, hnone, -⟩
  · obtain ⟨rfl, rfl⟩ := hrun.unique hm'
    exact ⟨a, s', hm, hq⟩
  · rw [hrun.value] at hnone
    cases hnone

end Pairs

end Traitor.Lib.Effects
