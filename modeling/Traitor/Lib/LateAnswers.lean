import Traitor.Lib.TwoPhase

namespace Traitor.Lib.TwoPhase

open LockOrder

variable {I κ κ' D D' Ω Ω' R E E' P P' A B ι : Type} [LinearOrder I]

/-- Requests are run one after the other, and the answer to each is shown before the next one. -/
inductive SerialShown (p : Protocol I κ D Ω R E P A) (shown : Ω → A → B) (w : Ω) : List (ι × R × B) → Ω → Prop
  | nil : SerialShown p shown w [] w
  | snoc {log : List (ι × R × B)} {w' w'' : Ω} {q : P} (c : ι) (r : R) (a : A) (h : SerialShown p shown w log w')
      (hgoes : Goes p (p.start r) (p.enter r w') q w'') (ha : p.answer q = some a) :
      SerialShown p shown w (log ++ [(c, r, shown w'' a)]) w''

/-- The answers are shown after their requests have unlocked. -/
structure Desk (ι I Ω R P A B : Type) where
  site : Site ι I Ω R P A
  shown : ℕ → Option B

def Desk.initial (ι I R P A B : Type) {Ω : Type} (w : Ω) : Desk ι I Ω R P A B :=
  ⟨.initial ι I R P A w, fun _ => none⟩

variable [DecidableEq ι]

inductive Desk.Step (p : Protocol I κ D Ω R E P A) (admitted : R → Prop) (shown : Ω → A → B) (c : ι)
    (s : Desk ι I Ω R P A B) : Desk ι I Ω R P A B → Prop
  | work (t : Site ι I Ω R P A) (h : TwoPhase.Step p admitted c s.site t)
      (hshown : s.site.locks.stages c = .idle → ∀ (i : ℕ) r a, s.site.log[i]? = some (c, r, a) →
        s.shown i ≠ none) :
      Step p admitted shown c s ⟨t, s.shown⟩
  | answer (i : ℕ) (r : R) (a : A) (hlog : s.site.log[i]? = some (c, r, a))
      (hidle : s.site.locks.stages c = .idle) (hnew : s.shown i = none) :
      Step p admitted shown c s ⟨s.site, Function.update s.shown i (some (shown s.site.world a))⟩

def Desk.Reachable (p : Protocol I κ D Ω R E P A) (admitted : R → Prop) (shown : Ω → A → B) (w : Ω)
    (s : Desk ι I Ω R P A B) : Prop :=
  Relation.ReflTransGen (fun s s' => ∃ c, Desk.Step p admitted shown c s s') (.initial ι I R P A B w) s

/-- A protocol does what another one does, on worlds that say the same. What a progress or an answer
stands for is not altered by what comes later. -/
structure Refines (p' : Protocol I κ' D' Ω' R E' P' A) (p : Protocol I κ D Ω R E P B) (label : E' → E)
    (admitted : R → Prop) (shown : Ω' → A → B) (later : Ω' → Ω' → Prop) (world : Ω' → Ω → Prop)
    (progress : Ω' → P' → P → Prop) (settled : Ω' → A → Prop) : Prop where
  discipline : p'.discipline = p.discipline
  label_surjective : Function.Surjective label
  enter : ∀ r w' w, world w' w → world (p'.enter r w') (p.enter r w) ∧ later w' (p'.enter r w')
  start : ∀ r w' w, admitted r → world w' w → progress w' (p'.start r) (p.start r)
  advance : ∀ e w' w q' q, world w' w → progress w' q' q → p'.answer q' = none →
    world (p'.advance e q' w').2 (p.advance (label e) q w).2 ∧
      progress (p'.advance e q' w').2 (p'.advance e q' w').1 (p.advance (label e) q w).1 ∧
      later w' (p'.advance e q' w').2
  answer_none : ∀ w' q' q, progress w' q' q → p'.answer q' = none → p.answer q = none
  answer_some : ∀ w' q' q a, progress w' q' q → p'.answer q' = some a →
    settled w' a ∧ p.answer q = some (shown w' a)
  progress_later : ∀ w' w'' q' q, later w' w'' → progress w' q' q → progress w'' q' q
  settled_later : ∀ w' w'' a, later w' w'' → settled w' a → settled w'' a ∧ shown w'' a = shown w' a

structure Mirrors (shown : Ω' → A → B) (world : Ω' → Ω → Prop) (progress : Ω' → P' → P → Prop)
    (settled : Ω' → A → Prop) (s' : Site ι I Ω' R P' A) (s : Site ι I Ω R P B) : Prop where
  locks : s'.locks = s.locks
  world : world s'.world s.world
  progress : ∀ c, Option.Rel (progress s'.world) (s'.progress c) (s.progress c)
  log : s.log = s'.log.map fun e => (e.1, e.2.1, shown s'.world e.2.2)
  settled : ∀ e ∈ s'.log, settled s'.world e.2.2

section

variable {p' : Protocol I κ' D' Ω' R E' P' A} {p : Protocol I κ D Ω R E P B} {label : E' → E}
  {admitted : R → Prop} {shown : Ω' → A → B} {later : Ω' → Ω' → Prop} {world : Ω' → Ω → Prop}
  {progress : Ω' → P' → P → Prop} {settled : Ω' → A → Prop} {s' t' : Site ι I Ω' R P' A}
  {s t : Site ι I Ω R P B} {c : ι} {r : R} {w' v' : Ω'} {w v : Ω} {q' : P'} {q : P}

omit [DecidableEq ι] in
/-- A later world says the same of the requests that are under way and of those that are through. -/
theorem Mirrors.after (hp : Refines p' p label admitted shown later world progress settled)
    (h : Mirrors shown world progress settled s' s) (hlater : later s'.world v') (hworld : world v' v) :
    Mirrors shown world progress settled { s' with world := v' } { s with world := v } where
  locks := h.locks
  world := hworld
  progress c := by
    have hrel := h.progress c
    dsimp only
    generalize s'.progress c = o' at hrel ⊢
    generalize s.progress c = o at hrel ⊢
    cases hrel with
    | some hq => exact .some (hp.progress_later _ _ _ _ hlater hq)
    | none => exact .none
  log := by
    rw [h.log]
    refine List.map_congr_left fun e he => ?_
    rw [(hp.settled_later _ _ _ hlater (h.settled e he)).2]
  settled e he := (hp.settled_later _ _ _ hlater (h.settled e he)).1

omit [LinearOrder I] in
/-- A client has come to another progress. -/
theorem Mirrors.update (h : Mirrors shown world progress settled s' s) (hq : progress s'.world q' q) :
    Mirrors shown world progress settled
      { s' with progress := Function.update s'.progress c (some q') }
      { s with progress := Function.update s.progress c (some q) } where
  locks := h.locks
  world := h.world
  progress c' := by
    dsimp only
    by_cases hne : c' = c
    · subst hne
      rw [Function.update_self, Function.update_self]
      exact .some hq
    · rw [Function.update_of_ne hne, Function.update_of_ne hne]
      exact h.progress c'
  log := h.log
  settled := h.settled

omit [DecidableEq ι] [LinearOrder I] in
theorem Mirrors.relock {t : System ι I R} (h : Mirrors shown world progress settled s' s) :
    Mirrors shown world progress settled { s' with locks := t } { s with locks := t } :=
  ⟨rfl, h.world, h.progress, h.log, h.settled⟩

omit [DecidableEq ι] [LinearOrder I] in
theorem Mirrors.progress_eq (h : Mirrors shown world progress settled s' s) (hc : s'.progress c = some q') :
    ∃ q, s.progress c = some q ∧ progress s'.world q' q := by
  have hrel := h.progress c
  rw [hc] at hrel
  generalize s.progress c = o at hrel
  cases hrel with
  | some hq => exact ⟨_, rfl, hq⟩

/-- A step of the one is a step of the other. -/
theorem Mirrors.step (hp : Refines p' p label admitted shown later world progress settled)
    (h : Mirrors shown world progress settled s' s) (hstep : Step p' admitted c s' t') :
    ∃ t, Step p admitted c s t ∧ Mirrors shown world progress settled t' t := by
  obtain ⟨locks, w', progress', log'⟩ := s'
  obtain ⟨_, w, progress, log⟩ := s
  obtain rfl := h.locks
  cases hstep with
  | begin r hr hc =>
      obtain ⟨hworld, hlater⟩ := hp.enter r _ _ h.world
      have hentered := ((h.after hp hlater hworld).update (c := c) (hp.start r _ _ hr hworld)).relock
        (t := locks.set c (.locking r (p'.discipline.acquire r)))
      rw [hp.discipline] at hentered ⊢
      exact ⟨_, .begin r hr hc, hentered⟩
  | lock locks' hlock hidle hholding =>
      rw [hp.discipline] at hlock
      exact ⟨_, .lock locks' hlock hidle hholding, h.relock⟩
  | run e r q' hc hq' hanswer =>
      obtain ⟨q, hq, hrel⟩ := h.progress_eq hq'
      obtain ⟨hworld, hnext, hlater⟩ := hp.advance e _ _ _ _ h.world hrel hanswer
      exact ⟨_, .run (label e) r q hc hq (hp.answer_none _ _ _ hrel hanswer),
        (h.after hp hlater hworld).update hnext⟩
  | finish r q' a hc hq' ha =>
      obtain ⟨q, hq, hrel⟩ := h.progress_eq hq'
      obtain ⟨hsettled, hanswer⟩ := hp.answer_some _ _ _ _ hrel ha
      refine ⟨_, .finish r q _ hc hq hanswer, ?_⟩
      rw [hp.discipline]
      refine ⟨rfl, h.world, h.progress, ?_, ?_⟩
      · have hlog := h.log
        dsimp only at hlog ⊢
        rw [hlog, List.map_append]
        rfl
      · intro e he
        rcases List.mem_append.mp he with he | he
        · exact h.settled e he
        · rw [List.mem_singleton.mp he]
          exact hsettled

omit [DecidableEq ι] [LinearOrder I] in
theorem mirrors_initial (hworld : world w' w) :
    Mirrors shown world progress settled (.initial ι I R P' A w') (.initial ι I R P B w) :=
  ⟨rfl, hworld, fun _ => .none, rfl, fun _ he => absurd he List.not_mem_nil⟩

omit [DecidableEq ι] in
/-- What one request alone does in the one protocol it does in the other. -/
theorem Goes.refined (hp : Refines p' p label admitted shown later world progress settled) {q₁ : P} {v : Ω}
    (h : Goes p q w q₁ v) (hq : progress w' q' q) (hworld : world w' w) :
    ∃ q₁' v', Goes p' q' w' q₁' v' ∧ progress v' q₁' q₁ ∧ world v' v := by
  induction h with
  | refl => exact ⟨q', w', .refl, hq, hworld⟩
  | step e h hanswer ih =>
      obtain ⟨q₂, v₂, hgoes, hrel, hworld₂⟩ := ih
      obtain ⟨e', rfl⟩ := hp.label_surjective e
      have hnone : p'.answer q₂ = none := by
        by_contra hsome
        obtain ⟨a, ha⟩ := Option.ne_none_iff_exists'.mp hsome
        rw [(hp.answer_some _ _ _ _ hrel ha).2] at hanswer
        cases hanswer
      obtain ⟨hworld', hnext, -⟩ := hp.advance e' _ _ _ _ hworld₂ hrel hnone
      exact ⟨_, _, .step e' hgoes hnone, hnext, hworld'⟩

omit [DecidableEq ι] in
theorem Serial.refined {log : List (ι × R × B)}
    (hp : Refines p' p label admitted shown later world progress settled) (h : Serial p w log v)
    (hlog : ∀ e ∈ log, admitted e.2.1) (hworld : world w' w) :
    ∃ v', SerialShown p' shown w' log v' ∧ world v' v := by
  induction h with
  | nil => exact ⟨w', .nil, hworld⟩
  | snoc c r a h hgoes ha ih =>
      rw [List.forall_mem_append] at hlog
      obtain ⟨u', hserial, hu⟩ := ih hlog.1
      obtain ⟨hentered, -⟩ := hp.enter r _ _ hu
      have hstart := hp.start r _ _ (hlog.2 _ (List.mem_singleton.mpr rfl)) hentered
      obtain ⟨q', v', hgoes', hq, hv⟩ := hgoes.refined hp hstart hentered
      have hsome : p'.answer q' ≠ none := by
        intro hnone
        rw [hp.answer_none _ _ _ hq hnone] at ha
        cases ha
      obtain ⟨a', ha'⟩ := Option.ne_none_iff_exists'.mp hsome
      have hshown := (hp.answer_some _ _ _ _ hq ha').2
      rw [ha] at hshown
      refine ⟨v', ?_, hv⟩
      rw [Option.some.inj hshown]
      exact .snoc c r a' hserial hgoes' ha'

def Requests (s : Site ι I Ω R P B) (c : ι) (r : R) : Prop :=
  pending (s.locks.stages c) = some r ∨ s.locks.stages c = .holding r

theorem Step.keeps_admitted (h : Step p admitted c s t) (hlog : ∀ e ∈ s.log, admitted e.2.1)
    (hrequests : ∀ c r, Requests s c r → admitted r) :
    (∀ e ∈ t.log, admitted e.2.1) ∧ ∀ c r, Requests t c r → admitted r := by
  cases h with
  | begin r hr hc =>
      refine ⟨hlog, fun c' r' hc' => ?_⟩
      by_cases hne : c' = c
      · rw [hne, Requests, System.set_stages] at hc'
        rcases hc' with hc' | hc'
        · exact Option.some.inj hc' ▸ hr
        · cases hc'
      · rw [Requests, System.set_stages_of_ne hne] at hc'
        exact hrequests c' r' hc'
  | lock locks hlock hidle hholding =>
      obtain ⟨hothers, hown⟩ := lock_stages hlock hidle hholding
      refine ⟨hlog, fun c' r' hc' => ?_⟩
      by_cases hne : c' = c
      · subst hne
        rcases hown with ⟨hnot, hsame⟩ | ⟨r, hpending, hheld⟩
        · exact hrequests c' r' (.inl (hsame ▸ hc'.resolve_right (hnot r')))
        · rw [Requests, hheld] at hc'
          rcases hc' with hc' | hc'
          · cases hc'
          · obtain rfl : r = r' := by injection hc'
            exact hrequests c' r (.inl hpending)
      · rw [Requests, hothers c' hne] at hc'
        exact hrequests c' r' hc'
  | run e r q hc hprogress hq => exact ⟨hlog, hrequests⟩
  | finish r q a hc hprogress ha =>
      refine ⟨List.forall_mem_append.mpr ⟨hlog, fun e he => ?_⟩, fun c' r' hc' => ?_⟩
      · rw [List.mem_singleton.mp he]
        exact hrequests c r (.inr hc)
      · by_cases hne : c' = c
        · rw [hne, Requests, System.set_stages] at hc'
          rcases hc' with hc' | hc'
          · cases hc'
          · cases hc'
        · rw [Requests, System.set_stages_of_ne hne] at hc'
          exact hrequests c' r' hc'

theorem admitted_of_reachable (h : Reachable p admitted w s) : ∀ e ∈ s.log, admitted e.2.1 := by
  suffices hall : (∀ e ∈ s.log, admitted e.2.1) ∧ ∀ c r, Requests s c r → admitted r from hall.1
  induction h with
  | refl => exact ⟨fun e he => absurd he List.not_mem_nil, fun c r hc => by rcases hc with hc | hc <;> cases hc⟩
  | tail _ hstep ih =>
      obtain ⟨c, hstep⟩ := hstep
      exact hstep.keeps_admitted ih.1 ih.2

theorem Step.log_getElem? {i : ℕ} {e : ι × R × B} (h : Step p admitted c s t) (hi : s.log[i]? = some e) :
    t.log[i]? = some e := by
  cases h with
  | begin | lock | run => exact hi
  | finish => exact (List.getElem?_append_left (List.getElem?_eq_some_iff.mp hi).1).trans hi

/-- What has been shown is what the other protocol answers. -/
theorem refined_of_reachable {d : Desk ι I Ω' R P' A B}
    (hp : Refines p' p label admitted shown later world progress settled) (hworld : world w' w)
    (h : Desk.Reachable p' admitted shown w' d) :
    ∃ s : Site ι I Ω R P B, Reachable p admitted w s ∧ Mirrors shown world progress settled d.site s ∧
      ∀ i b, d.shown i = some b → ∃ c r, s.log[i]? = some (c, r, b) := by
  induction h with
  | refl => exact ⟨_, .refl, mirrors_initial hworld, fun _ _ hb => absurd hb nofun⟩
  | tail _ hstep ih =>
      obtain ⟨s, hreach, hmirrors, hshown⟩ := ih
      obtain ⟨c, hstep⟩ := hstep
      cases hstep with
      | work t' hwork _ =>
          obtain ⟨t, hstep, ht⟩ := hmirrors.step hp hwork
          refine ⟨t, hreach.tail ⟨c, hstep⟩, ht, fun i b hb => ?_⟩
          obtain ⟨c', r, hlog⟩ := hshown i b hb
          exact ⟨c', r, hstep.log_getElem? hlog⟩
      | answer i r a hlog hidle hnew =>
          refine ⟨s, hreach, hmirrors, fun j b hb => ?_⟩
          by_cases hj : j = i
          · subst hj
            dsimp only at hb
            rw [Function.update_self] at hb
            refine ⟨c, r, ?_⟩
            rw [hmirrors.log, List.getElem?_map, hlog, ← Option.some.inj hb]
            rfl
          · dsimp only at hb
            rw [Function.update_of_ne hj] at hb
            exact hshown j b hb

/-- Where no client holds its locks, all that has been shown is what the requests show one after the
other, and the worlds say the same. -/
theorem shown_of_reachable {good : Ω → Prop} {fits : R → P → Prop} {d : Desk ι I Ω' R P' A B}
    (hp : Refines p' p label admitted shown later world progress settled) (hlawful : Lawful p good fits)
    (hadmitted : ∀ r, admitted r → fits r (p.start r)) (hw : good w) (hworld : world w' w)
    (h : Desk.Reachable p' admitted shown w' d) (hfree : ∀ c r, d.site.locks.stages c ≠ .holding r) :
    ∃ order v' v₁ v₂, SerialShown p' shown w' order v' ∧
      (order.map fun e => (e.1, e.2.1)) = (d.site.log.map fun e => (e.1, e.2.1)) ∧
      (∀ i b, d.shown i = some b → ∃ c r, order[i]? = some (c, r, b)) ∧
      world d.site.world v₁ ∧ world v' v₂ ∧ p.look v₁ = p.look v₂ := by
  obtain ⟨s, hreach, hmirrors, hshown⟩ := refined_of_reachable hp hworld h
  obtain ⟨v, hserial, hlook⟩ := serial_of_reachable hlawful hadmitted hw hreach fun c r => by
    rw [← hmirrors.locks]
    exact hfree c r
  obtain ⟨v', hserial', hv⟩ := hserial.refined hp (admitted_of_reachable hreach) hworld
  refine ⟨s.log, v', s.world, v, hserial', ?_, hshown, hmirrors.world, hv, hlook⟩
  rw [hmirrors.log, List.map_map]
  rfl

end

end Traitor.Lib.TwoPhase
