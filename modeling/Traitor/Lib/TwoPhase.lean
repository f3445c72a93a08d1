import Mathlib.Data.Set.Basic
import Traitor.Lib.LockOrder

namespace Traitor.Lib.TwoPhase

open LockOrder

/-- Requests are run in steps on a world, in which a key `κ` has a content `D`. A request locks the
slots of its keys before its first step, and unlocks them when its progress `P` is an answer. The
labels `E` of the steps leave open what a request does not decide. -/
structure Protocol (I κ D Ω R E P A : Type) [LinearOrder I] where
  discipline : Discipline I R
  slot : κ → I
  look : Ω → κ → D
  enter : R → Ω → Ω
  start : R → P
  advance : E → P → Ω → P × Ω
  answer : P → Option A
  touches : R → Set κ
  writes : R → Set κ

def Agree {κ D Ω : Type} (look : Ω → κ → D) (K : Set κ) (w w' : Ω) : Prop :=
  ∀ k ∈ K, look w k = look w' k

variable {I κ D Ω R E P A ι : Type} [LinearOrder I]

/-- The slots of the keys are locked, and a step of a request neither depends on other keys than
those it touches nor changes others than those it writes. -/
structure Lawful (p : Protocol I κ D Ω R E P A) (good : Ω → Prop) (fits : R → P → Prop) : Prop where
  locks_writes : ∀ r, ∀ k ∈ p.writes r, (p.slot k, .write) ∈ p.discipline.acquire r
  locks_touches : ∀ r, ∀ k ∈ p.touches r, ∃ mode, (p.slot k, mode) ∈ p.discipline.acquire r
  writes_subset : ∀ r, p.writes r ⊆ p.touches r
  look_enter : ∀ r w, p.look (p.enter r w) = p.look w
  good_enter : ∀ r w, good w → good (p.enter r w)
  fits_advance : ∀ e r q w, fits r q → good w → p.answer q = none → fits r (p.advance e q w).1
  good_advance : ∀ e r q w, fits r q → good w → p.answer q = none → good (p.advance e q w).2
  local_advance : ∀ e r q w w', fits r q → good w → good w' → p.answer q = none →
    Agree p.look (p.touches r) w w' → (p.advance e q w).1 = (p.advance e q w').1 ∧
      Agree p.look (p.touches r) (p.advance e q w).2 (p.advance e q w').2
  frame_advance : ∀ e r q w, fits r q → good w → p.answer q = none →
    ∀ k ∉ p.writes r, p.look (p.advance e q w).2 k = p.look w k

inductive Goes (p : Protocol I κ D Ω R E P A) (q : P) (w : Ω) : P → Ω → Prop
  | refl : Goes p q w q w
  | step {q' : P} {w' : Ω} (e : E) (h : Goes p q w q' w') (hq : p.answer q' = none) :
      Goes p q w (p.advance e q' w').1 (p.advance e q' w').2

inductive Serial (p : Protocol I κ D Ω R E P A) (w : Ω) : List (ι × R × A) → Ω → Prop
  | nil : Serial p w [] w
  | snoc {log : List (ι × R × A)} {w' w'' : Ω} {q : P} (c : ι) (r : R) (a : A) (h : Serial p w log w')
      (hgoes : Goes p (p.start r) (p.enter r w') q w'') (ha : p.answer q = some a) :
      Serial p w (log ++ [(c, r, a)]) w''

structure Site (ι I Ω R P A : Type) where
  locks : System ι I R
  world : Ω
  progress : ι → Option P
  log : List (ι × R × A)

def Site.initial (ι I R P A : Type) {Ω : Type} (w : Ω) : Site ι I Ω R P A :=
  ⟨.initial ι I R, w, fun _ => none, []⟩

variable [DecidableEq ι]

inductive Step (p : Protocol I κ D Ω R E P A) (admitted : R → Prop) (c : ι) (s : Site ι I Ω R P A) :
    Site ι I Ω R P A → Prop
  | begin (r : R) (hr : admitted r) (h : s.locks.stages c = .idle) :
      Step p admitted c s ⟨s.locks.set c (.locking r (p.discipline.acquire r)), p.enter r s.world,
        Function.update s.progress c (some (p.start r)), s.log⟩
  | lock (locks : System ι I R) (h : LockOrder.Step p.discipline c s.locks locks)
      (hidle : s.locks.stages c ≠ .idle) (hholding : ∀ r, s.locks.stages c ≠ .holding r) :
      Step p admitted c s { s with locks := locks }
  | run (e : E) (r : R) (q : P) (h : s.locks.stages c = .holding r) (hprogress : s.progress c = some q)
      (hq : p.answer q = none) :
      Step p admitted c s { s with
        world := (p.advance e q s.world).2
        progress := Function.update s.progress c (some (p.advance e q s.world).1) }
  | finish (r : R) (q : P) (a : A) (h : s.locks.stages c = .holding r)
      (hprogress : s.progress c = some q) (ha : p.answer q = some a) :
      Step p admitted c s { s with
        locks := s.locks.set c (.unlocking r (p.discipline.release r))
        log := s.log ++ [(c, r, a)] }

def Reachable (p : Protocol I κ D Ω R E P A) (admitted : R → Prop) (w : Ω) (s : Site ι I Ω R P A) : Prop :=
  Relation.ReflTransGen (fun s s' => ∃ c, Step p admitted c s s') (.initial ι I R P A w) s

def pending : Stage I R → Option R
  | .locking r _ | .parked r _ _ | .draining r _ _ => some r
  | _ => none

section

variable {p : Protocol I κ D Ω R E P A} {admitted : R → Prop} {good : Ω → Prop} {fits : R → P → Prop}
  {s s' : Site ι I Ω R P A} {c c' : ι} {r r' : R} {q q' : P} {w w' base : Ω} {k : κ}

omit [DecidableEq ι] in
theorem Agree.trans {look : Ω → κ → D} {K : Set κ} {w'' : Ω} (h : Agree look K w w')
    (h' : Agree look K w' w'') : Agree look K w w'' := fun k hk => (h k hk).trans (h' k hk)

omit [DecidableEq ι] in
theorem Goes.trans {q'' : P} {w'' : Ω} (h : Goes p q w q' w') (h' : Goes p q' w' q'' w'') :
    Goes p q w q'' w'' := by
  induction h' with
  | refl => exact h
  | step e _ hq ih => exact .step e ih hq

omit [DecidableEq ι] in
/-- What a run alone leads to, besides the world it leads to. -/
theorem Goes.keeps (hp : Lawful p good fits) (h : Goes p q w q' w') (hq : fits r q) (hw : good w) :
    fits r q' ∧ good w' ∧ ∀ k ∉ p.writes r, p.look w' k = p.look w k := by
  induction h with
  | refl => exact ⟨hq, hw, fun _ _ => rfl⟩
  | step e h hanswer ih =>
      obtain ⟨hfits, hgood, hframe⟩ := ih
      refine ⟨hp.fits_advance e r _ _ hfits hgood hanswer, hp.good_advance e r _ _ hfits hgood hanswer,
        fun k hk => ?_⟩
      rw [hp.frame_advance e r _ _ hfits hgood hanswer k hk]
      exact hframe k hk

omit [DecidableEq ι] in
/-- A run goes the same way from another world that is the same under the keys it touches. -/
theorem Goes.transfer (hp : Lawful p good fits) (h : Goes p q base q' w) (hq : fits r q) (hbase : good base)
    (hw' : good w') (hagree : Agree p.look (p.touches r) base w') :
    ∃ w'', Goes p q w' q' w'' ∧ Agree p.look (p.touches r) w w'' := by
  induction h with
  | refl => exact ⟨w', .refl, hagree⟩
  | step e h hanswer ih =>
      obtain ⟨w'', hgoes, hagree'⟩ := ih
      obtain ⟨hfits, hgood, -⟩ := h.keeps hp hq hbase
      obtain ⟨-, hgood', -⟩ := hgoes.keeps hp hq hw'
      obtain ⟨hsame, hnext⟩ := hp.local_advance e r _ _ _ hfits hgood hgood' hanswer hagree'
      refine ⟨_, ?_, hnext⟩
      rw [hsame]
      exact .step e hgoes hanswer

/-- What a step of a client in the locks does to its stage, and to those of the others. -/
theorem lock_stages {d : Discipline I R} {t t' : System ι I R} (h : LockOrder.Step d c t t')
    (hidle : t.stages c ≠ .idle) (hholding : ∀ r, t.stages c ≠ .holding r) :
    (∀ c' ≠ c, t'.stages c' = t.stages c') ∧
      ((∀ r, t'.stages c ≠ .holding r) ∧ (pending (t'.stages c) = pending (t.stages c)) ∨
        ∃ r, pending (t.stages c) = some r ∧ t'.stages c = .holding r) := by
  cases h with
  | lockAll r h => exact absurd h hidle
  | unlockAll r h => exact absurd h (hholding r)
  | rLock r i todo h | park r i todo h | announce r i todo h =>
      refine ⟨fun c' hc => System.put_stages_of_ne hc, .inl ⟨?_, ?_⟩⟩
      · simp [System.put_stages]
      · rw [System.put_stages, h]
        rfl
  | wake r i todo h | drained r i todo h =>
      refine ⟨fun c' hc => System.set_stages_of_ne hc, .inl ⟨?_, ?_⟩⟩
      · simp [System.set_stages]
      · rw [System.set_stages, h]
        rfl
  | locked r h =>
      exact ⟨fun c' hc => System.set_stages_of_ne hc, .inr ⟨r, by rw [h]; rfl, System.set_stages⟩⟩
  | rUnlock r i todo h | unlock r i todo h =>
      refine ⟨fun c' hc => System.put_stages_of_ne hc, .inl ⟨?_, ?_⟩⟩
      · simp [System.put_stages]
      · rw [System.put_stages, h]
        rfl
  | unlocked r h =>
      refine ⟨fun c' hc => System.set_stages_of_ne hc, .inl ⟨?_, ?_⟩⟩
      · simp [System.set_stages]
      · rw [System.set_stages, h]
        rfl

omit [DecidableEq ι] in
/-- Of two clients that hold their locks none writes what the other touches. -/
theorem exclusive {t : System ι I R} (hp : Lawful p good fits) (ht : Inv p.discipline t) (hne : c ≠ c')
    (h : t.stages c = .holding r) (h' : t.stages c' = .holding r') (hk : k ∈ p.touches r) :
    k ∉ p.writes r' := by
  intro hwrite
  have hfits := ht.fits c
  have hfits' := ht.fits c'
  rw [Fits, h] at hfits
  rw [Fits, h'] at hfits'
  obtain ⟨mode, hmode⟩ := hp.locks_touches r k hk
  have howns' := (hfits'.1 (p.slot k, .write)).mpr (hp.locks_writes r' k hwrite)
  exact ht.exclusive (Ne.symm hne) ⟨howns', fun _ => System.not_drains h' (by simp) _⟩ mode
    ((hfits.1 (p.slot k, mode)).mpr hmode)

/-- The requests that are through, one after the other, lead to a base world. From it each client
that holds its locks has come alone to where it is, and under the other keys nothing has changed. -/
structure Serializes (p : Protocol I κ D Ω R E P A) (good : Ω → Prop) (fits : R → P → Prop) (w : Ω)
    (s : Site ι I Ω R P A) (base : Ω) : Prop where
  locks : Inv p.discipline s.locks
  serial : Serial p w s.log base
  good_base : good base
  good_world : good s.world
  pending : ∀ c r, pending (s.locks.stages c) = some r →
    s.progress c = some (p.start r) ∧ fits r (p.start r)
  holding : ∀ c r, s.locks.stages c = .holding r → ∃ q w', s.progress c = some q ∧
    fits r (p.start r) ∧ Goes p (p.start r) (p.enter r base) q w' ∧
      Agree p.look (p.touches r) s.world w'
  rest : ∀ k, (∀ c r, s.locks.stages c = .holding r → k ∉ p.writes r) →
    p.look s.world k = p.look base k

omit [DecidableEq ι] in
theorem serializes_initial (p : Protocol I κ D Ω R E P A) {good : Ω → Prop} (fits : R → P → Prop)
    (hw : good w) : Serializes p good fits w (.initial ι I R P A w) w where
  locks := inv_initial
  serial := .nil
  good_base := hw
  good_world := hw
  pending _ _ h := by simp [Site.initial, System.initial, TwoPhase.pending] at h
  holding _ _ h := by simp [Site.initial, System.initial] at h
  rest _ _ := rfl

theorem Serializes.begin (hp : Lawful p good fits) (h : Serializes p good fits w s base)
    (hfits : fits r (p.start r)) (hc : s.locks.stages c = .idle) :
    Serializes p good fits w ⟨s.locks.set c (.locking r (p.discipline.acquire r)), p.enter r s.world,
      Function.update s.progress c (some (p.start r)), s.log⟩ base where
  locks := h.locks.lockAll hc
  serial := h.serial
  good_base := h.good_base
  good_world := hp.good_enter r _ h.good_world
  pending c' r' hc' := by
    by_cases hne : c' = c
    · subst hne
      rw [System.set_stages] at hc'
      obtain rfl := Option.some.inj hc'
      exact ⟨Function.update_self _ _ _, hfits⟩
    · rw [System.set_stages_of_ne hne] at hc'
      dsimp only
      rw [Function.update_of_ne hne]
      exact h.pending c' r' hc'
  holding c' r' hc' := by
    by_cases hne : c' = c
    · subst hne
      rw [System.set_stages] at hc'
      cases hc'
    · rw [System.set_stages_of_ne hne] at hc'
      dsimp only
      rw [Function.update_of_ne hne]
      obtain ⟨q, w', hq, hstart, hgoes, hagree⟩ := h.holding c' r' hc'
      exact ⟨q, w', hq, hstart, hgoes, fun k hk => (congrFun (hp.look_enter r s.world) k).trans (hagree k hk)⟩
  rest k hk := by
    rw [hp.look_enter]
    refine h.rest k fun c' r' hc' => hk c' r' ?_
    have hne : c' ≠ c := by
      rintro rfl
      rw [hc] at hc'
      cases hc'
    exact (System.set_stages_of_ne hne).trans hc'

theorem Serializes.lock {t : System ι I R} (hp : Lawful p good fits) (h : Serializes p good fits w s base)
    (hstep : LockOrder.Step p.discipline c s.locks t) (hidle : s.locks.stages c ≠ .idle)
    (hholding : ∀ r, s.locks.stages c ≠ .holding r) :
    Serializes p good fits w { s with locks := t } base := by
  obtain ⟨hothers, hown⟩ := lock_stages hstep hidle hholding
  have hlocks := h.locks.step hstep
  refine ⟨hlocks, h.serial, h.good_base, h.good_world, fun c' r' hc' => ?_, fun c' r' hc' => ?_, fun k hk => ?_⟩
  · by_cases hne : c' = c
    · subst hne
      rcases hown with ⟨-, hsame⟩ | ⟨r, -, hheld⟩
      · exact h.pending c' r' (hsame ▸ hc')
      · dsimp only at hc'
        rw [hheld] at hc'
        cases hc'
    · dsimp only at hc'
      rw [hothers c' hne] at hc'
      exact h.pending c' r' hc'
  · by_cases hne : c' = c
    · subst hne
      rcases hown with ⟨hnot, -⟩ | ⟨r, hpending, hheld⟩
      · exact absurd hc' (hnot r')
      · obtain ⟨hprogress, hstart⟩ := h.pending c' r hpending
        rw [hheld] at hc'
        cases hc'
        refine ⟨p.start r', p.enter r' base, hprogress, hstart, .refl, fun k hk => ?_⟩
        rw [hp.look_enter]
        apply h.rest k
        intro c'' r'' hc''
        by_cases hne : c'' = c'
        · exact absurd (hne ▸ hc'') (hholding r'')
        · exact exclusive hp hlocks (Ne.symm hne) hheld ((hothers c'' hne).trans hc'') hk
    · dsimp only at hc'
      rw [hothers c' hne] at hc'
      exact h.holding c' r' hc'
  · refine h.rest k fun c' r' hc' => hk c' r' ?_
    by_cases hne : c' = c
    · exact absurd (hne ▸ hc') (hholding r')
    · exact (hothers c' hne).trans hc'

theorem Serializes.run (hp : Lawful p good fits) (h : Serializes p good fits w s base) (e : E)
    (hc : s.locks.stages c = .holding r) (hprogress : s.progress c = some q) (hq : p.answer q = none) :
    Serializes p good fits w { s with
      world := (p.advance e q s.world).2
      progress := Function.update s.progress c (some (p.advance e q s.world).1) } base := by
  obtain ⟨q', w', hq', hstart, hgoes, hagree⟩ := h.holding c r hc
  obtain rfl := Option.some.inj (hprogress.symm.trans hq')
  obtain ⟨hfits, hgood, -⟩ := hgoes.keeps hp hstart (hp.good_enter r _ h.good_base)
  have hframe := hp.frame_advance e r q s.world hfits h.good_world hq
  refine ⟨h.locks, h.serial, h.good_base, hp.good_advance e r q _ hfits h.good_world hq,
    fun c' r' hc' => ?_, fun c' r' hc' => ?_, fun k hk => ?_⟩
  · have hne : c' ≠ c := by
      rintro rfl
      change TwoPhase.pending (s.locks.stages c') = some r' at hc'
      rw [hc] at hc'
      cases hc'
    dsimp only
    rw [Function.update_of_ne hne]
    exact h.pending c' r' hc'
  · by_cases hne : c' = c
    · subst hne
      obtain rfl : r = r' := by
        have hsame := hc.symm.trans hc'
        injection hsame
      obtain ⟨hsame, hnext⟩ := hp.local_advance e r q _ _ hfits h.good_world hgood hq hagree
      refine ⟨_, _, Function.update_self _ _ _, hstart, ?_, hnext⟩
      rw [hsame]
      exact .step e hgoes hq
    · dsimp only
      rw [Function.update_of_ne hne]
      obtain ⟨q'', w'', hq'', hstart', hgoes', hagree'⟩ := h.holding c' r' hc'
      refine ⟨q'', w'', hq'', hstart', hgoes', fun k hk => ?_⟩
      rw [hframe k (exclusive hp h.locks hne hc' hc hk)]
      exact hagree' k hk
  · rw [hframe k (hk c r hc)]
    exact h.rest k hk

theorem Serializes.finish {a : A} (hp : Lawful p good fits) (h : Serializes p good fits w s base)
    (hc : s.locks.stages c = .holding r) (hprogress : s.progress c = some q) (ha : p.answer q = some a) :
    ∃ base', Serializes p good fits w { s with
      locks := s.locks.set c (.unlocking r (p.discipline.release r))
      log := s.log ++ [(c, r, a)] } base' := by
  obtain ⟨q', w', hq', hstart, hgoes, hagree⟩ := h.holding c r hc
  obtain rfl := Option.some.inj (hprogress.symm.trans hq')
  obtain ⟨-, hgood, hframe⟩ := hgoes.keeps hp hstart (hp.good_enter r _ h.good_base)
  have hbase (k : κ) (hk : k ∉ p.writes r) : p.look w' k = p.look base k := by
    rw [hframe k hk, hp.look_enter]
  refine ⟨w', h.locks.unlockAll hc, .snoc c r a h.serial hgoes ha, hgood, h.good_world,
    fun c' r' hc' => ?_, fun c' r' hc' => ?_, fun k hk => ?_⟩
  · have hne : c' ≠ c := by
      rintro rfl
      rw [System.set_stages] at hc'
      cases hc'
    rw [System.set_stages_of_ne hne] at hc'
    exact h.pending c' r' hc'
  · have hne : c' ≠ c := by
      rintro rfl
      rw [System.set_stages] at hc'
      cases hc'
    rw [System.set_stages_of_ne hne] at hc'
    obtain ⟨q'', w'', hq'', hstart', hgoes', hagree'⟩ := h.holding c' r' hc'
    have henter : Agree p.look (p.touches r') (p.enter r' base) (p.enter r' w') := fun k hk => by
      rw [hp.look_enter, hp.look_enter, hbase k (exclusive hp h.locks hne hc' hc hk)]
    obtain ⟨v, hgoes'', hagree''⟩ := hgoes'.transfer hp hstart' (hp.good_enter r' _ h.good_base)
      (hp.good_enter r' _ hgood) henter
    exact ⟨q'', v, hq'', hstart', hgoes'', hagree'.trans hagree''⟩
  · by_cases hwrite : k ∈ p.writes r
    · exact hagree k (hp.writes_subset r hwrite)
    · rw [hbase k hwrite]
      apply h.rest k
      intro c' r' hc'
      by_cases hne : c' = c
      · subst hne
        obtain rfl : r = r' := by
          have hsame := hc.symm.trans hc'
          injection hsame
        exact hwrite
      · exact hk c' r' ((System.set_stages_of_ne hne).trans hc')

theorem Serializes.step (hp : Lawful p good fits) (hadmitted : ∀ r, admitted r → fits r (p.start r))
    (h : Serializes p good fits w s base) (hstep : Step p admitted c s s') :
    ∃ base', Serializes p good fits w s' base' := by
  cases hstep with
  | begin r hr hc => exact ⟨base, h.begin hp (hadmitted r hr) hc⟩
  | lock locks hstep hidle hholding => exact ⟨base, h.lock hp hstep hidle hholding⟩
  | run e r q hc hprogress hq => exact ⟨base, h.run hp e hc hprogress hq⟩
  | finish r q a hc hprogress ha => exact h.finish hp hc hprogress ha

theorem serializes_of_reachable (hp : Lawful p good fits)
    (hadmitted : ∀ r, admitted r → fits r (p.start r)) (hw : good w) (h : Reachable p admitted w s) :
    ∃ base, Serializes p good fits w s base := by
  induction h with
  | refl => exact ⟨w, serializes_initial p fits hw⟩
  | tail _ hstep ih =>
      obtain ⟨base, hbase⟩ := ih
      obtain ⟨c, hstep⟩ := hstep
      exact hbase.step hp hadmitted hstep

/-- Where no client holds its locks, the world and all answers are those of the requests one after
the other. -/
theorem serial_of_reachable (hp : Lawful p good fits)
    (hadmitted : ∀ r, admitted r → fits r (p.start r)) (hw : good w) (h : Reachable p admitted w s)
    (hfree : ∀ c r, s.locks.stages c ≠ .holding r) :
    ∃ w', Serial p w s.log w' ∧ p.look s.world = p.look w' := by
  obtain ⟨base, hbase⟩ := serializes_of_reachable hp hadmitted hw h
  exact ⟨base, hbase.serial, funext fun k => hbase.rest k fun c r hc => absurd hc (hfree c r)⟩

end

end Traitor.Lib.TwoPhase
