import Traitor.StandaloneWheel

namespace Traitor.Standalone

open Schedule

variable {lib : Library} {s t u : State} {key : Bytes} {g : Goroutine} {next : Option Point}
  {b : Bool} {ok : State → Action → Prop}

def Runs (s : State) (key : Bytes) : Prop :=
  s.store.jobKeys key = true ∧ (s.store.record key).state = runnable

def OnlyRunnable (lib : Library) (ok : State → Action → Prop) : Prop :=
  ∀ now s, Reaches lib ok (State.make now) s → Quiet s →
    ∀ key job, (key, job) ∈ s.timeWheel → Runs s key

def Point.Stopping : Point → Prop
  | .stateChange state => ¬ state = runnable
  | .cancelJob _ => True
  | _ => False

/-- The steps that look at no state where they should: a new job under the id of one that
waits in the wheel, new times of a job that is stopped or not there, and a closure
that adds the job again after it was stopped. -/
def Point.Minds (s : State) (g : Goroutine) : Point → Prop
  | .hmset runs _ => runs = true ∨ ¬ InWheel s g.jobId
  | .updateJob _ => Runs s g.jobId ∨ ¬ (s.store.record g.jobId).execType = timingExecute
  | .send _ => g.kind = .execution → (∃ p, phase s g.jobId = some p ∧ p.Stopping) ∨
      Runs s g.jobId ∧ phase s g.jobId ≠ some .srem
  | _ => True

def MindsState (s : State) (a : Action) : Prop :=
  ∀ i g, a = .move i → s.goroutines[i]? = some g → g.point.Minds s g

def Record.Unset (r : Record) : Prop :=
  r.cron = [] ∧ r.execAt = [] ∧ r.execType = timingExecute

/-- What holds of a job at each point of the handling of a request. -/
def Fine (r : Record) (stored : Bool) (inWheel : Prop) : Option Point → Prop
  | none | some (.create _ _) | some (.hmset _ _) | some (.start _) | some (.update _)
  | some (.updateJob _) | some (.updateScript _) =>
      (inWheel → stored = true ∧ r.state = runnable) ∧ (stored = false → r.Unset)
  | some (.setState state) =>
      (inWheel → stored = true ∧ r.state = runnable) ∧ (stored = false → r.Unset) ∧
        (state = runnable → stored = true)
  | some (.sadd runs) =>
      if runs then r.state = runnable else r.state = stop ∧ ¬ inWheel
  | some (.stateChange state) =>
      (stored = false → r.Unset) ∧ (state = runnable → stored = true ∧ r.state = runnable)
  | some .getJobInfo =>
      (inWheel → stored = true ∧ r.state = runnable) ∧ (stored = false → r.Unset) ∧
        (stored = true ∧ r.state = runnable ∨ ¬ r.execType = timingExecute)
  | some (.addJob r') =>
      r' = r ∧ (inWheel → stored = true ∧ r.state = runnable) ∧ (stored = false → r.Unset) ∧
        (stored = true ∧ r.state = runnable ∨ ¬ r.execType = timingExecute)
  | some (.send _) => stored = true ∧ r.state = runnable
  | some (.cancelJob _) => stored = false → r.Unset
  | some .srem => (stored = false → r.Unset) ∧ ¬ inWheel
  | some .del => stored = false ∧ ¬ inWheel
  | some (.call _) | some (.executed _) => False

theorem Fine.anti {r : Record} {stored : Bool} {inWheel inWheel' : Prop} {p : Option Point}
    (h : Fine r stored inWheel p) (hw : inWheel' → inWheel) : Fine r stored inWheel' p := by
  cases p with
  | none => exact ⟨fun hi => h.1 (hw hi), h.2⟩
  | some p => cases p <;> grind [Fine]

@[simp, grind =] theorem inWheel_setRecord (k : Bytes) (r : Record) :
    InWheel (s.setRecord k r) key ↔ InWheel s key := .rfl

@[simp, grind =] theorem inWheel_setKey (k : Bytes) (m : Bool) :
    InWheel (s.setKey k m) key ↔ InWheel s key := .rfl

@[simp, grind =] theorem inWheel_panic (k : Kind) : InWheel (s.panic k) key ↔ InWheel s key := by
  cases k <;> exact .rfl

@[grind =] theorem inWheel_remove : InWheel { s with inbox := some (.remove key) } key ↔ False := by
  simp [InWheel]

theorem Fine.advance (h : Fine (s.store.record g.jobId) (s.store.jobKeys g.jobId)
      (InWheel s g.jobId) (some g.point)) (hm : g.point.Minds s g)
    (hadv : advance lib s g = some (u, next, b)) :
    Fine (u.store.record g.jobId) (u.store.jobKeys g.jobId) (InWheel u g.jobId) next := by
  have hstop : ¬ stop = runnable := by decide
  have hnil : ∀ t, lib.cron [] t = none := lib.cron_nil
  simp only [Standalone.advance] at hadv
  have hzero : Record.zero.Unset := ⟨rfl, rfl, rfl⟩
  split at hadv <;> rename_i hp <;> rw [hp] at h hm
  case h_2 runs job =>
    obtain ⟨rfl, rfl, -⟩ := hadv
    cases runs <;> simp_all [Fine, Point.Minds, addFields]
  case h_12 =>
    obtain ⟨rfl, rfl, -⟩ := hadv
    simp_all [Fine]
  case h_14 r =>
    obtain ⟨rfl, hw, hu, hr⟩ := h
    split at hadv
    · grind [Fine]
    · grind [Fine]
    · grind [Fine]
    · rename_i d k job hadd
      have hdue := addJob_getJobInfo hadd
      obtain ⟨rfl, rfl, -⟩ := hadv
      exact hr.resolve_right (not_not_intro hdue.1)
  all_goals grind [Fine, Point.Minds, Runs, Record.Unset, checkTimeSettings, getJobInfo]

theorem Fine.hand {r : Record} {stored : Bool} {inWheel inWheel' : Prop} {p : Option Point}
    (h : Fine r stored inWheel p) (hp : (∃ q, p = some q ∧ q.Stopping) ∨
      (stored = true ∧ r.state = runnable) ∧ p ≠ some .srem) : Fine r stored inWheel' p := by
  have hstop : ¬ stop = runnable := by decide
  cases p with
  | none => grind [Fine]
  | some p => cases p <;> grind [Fine, Point.Stopping]

structure Tracked (s : State) (key : Bytes) : Prop extends Calm s key where
  fine : Fine (s.store.record key) (s.store.jobKeys key) (InWheel s key) (phase s key)

theorem Tracked.make (now : Nat) : Tracked (State.make now) key where
  executing := by simp [executions, own, State.make]
  single := by simp [handlers, own, State.make]
  fine := by
    refine ⟨fun hw => ?_, fun _ => ⟨rfl, rfl, rfl⟩⟩
    simp [InWheel, State.make] at hw

theorem Tracked.step {a : Action} {started : Option Bytes} (h : Tracked s key)
    (hseq : Sequential s a) (hm : MindsState s a) (hs : step lib s a = some (t, started)) :
    Tracked t key := by
  obtain ⟨hcalm, hturn⟩ := h.toCalm.step (fun r hr _ => phase_nil (hseq r hr)) hs
  have hfine := h.fine
  refine ⟨hcalm, ?_⟩
  cases hturn with
  | same job hwheel hphase =>
      rw [job.1, job.2, hphase]
      exact hfine.anti hwheel.mp
  | request r ha hk job hwheel hnone hphase =>
      rw [hnone] at hfine
      rw [job.1, job.2, hphase]
      have hidle := hfine.anti hwheel.mp
      cases r with
      | remove id => exact hidle.2
      | _ => exact hidle
  | fire job hwheel hphase =>
      rw [job.1, job.2, hphase]
      exact hfine.anti hwheel
  | execute i g u next b ha hi hk hg hadv ht hphase =>
      subst ht
      rw [hphase]
      rcases advance_executing hadv hg with ⟨rfl, -⟩ | ⟨⟨job, hp⟩, -, -, job', rfl⟩
      · exact hfine
      · have hmind := hm i g ha hi
        rw [hp] at hmind
        have hhand := hmind hg.1
        rw [hk] at hhand
        exact hfine.hand hhand
  | serve i g u next b ha hi hk hkind hadv ht hphase hnext =>
      subst ht hk
      rw [hphase] at hfine
      rw [hnext]
      have hu : Fine (u.store.record g.jobId) (u.store.jobKeys g.jobId) (InWheel u g.jobId) next :=
        hfine.advance (hm i g ha hi) hadv
      exact hu

theorem Tracked.reaches {now : Nat}
    (h : Reaches lib (fun s a => Sequential s a ∧ MindsState s a) (State.make now) s) :
    Tracked s key := by
  induction h with
  | refl => exact .make now
  | tail _ hstep ih =>
      obtain ⟨a, started, ⟨hseq, hm⟩, hs⟩ := hstep
      exact ih.step hseq hm hs

/-- Where every step minds the state of the job, only runnable jobs wait in the wheel. -/
theorem onlyRunnable_minding (lib : Library) :
    OnlyRunnable lib fun s a => Sequential s a ∧ MindsState s a := by
  intro now s hr hq key job hj
  have htracked : Tracked s key := .reaches hr
  have hfine := htracked.fine
  rw [phase_nil hq.1] at hfine
  exact hfine.1 (.inl ⟨⟨job, hj⟩, by simp [hq.2]⟩)

instance (s : State) (a : Action) : Decidable (Sequential s a) :=
  match a with
  | .request r => decidable_of_iff (∀ g ∈ s.goroutines, g.kind = .execution)
      ⟨fun h _ _ => h, fun h => h r rfl⟩
  | .pass _ | .fire _ | .handle | .move _ => .isTrue (by intro r hr; simp at hr)

def sequentialRun (lib : Library) (s : State) : List Action → Option State
  | [] => some s
  | a :: as =>
      if Sequential s a then
        match step lib s a with
        | none => none
        | some (t, _) => sequentialRun lib t as
      else none

theorem sequentialRun_reaches {as : List Action} (h : sequentialRun lib s as = some t) :
    Reaches lib Sequential s t := by
  induction as generalizing s with
  | nil =>
      obtain rfl := Option.some.inj h
      exact .refl
  | cons a as ih =>
      rw [sequentialRun] at h
      split at h
      · rename_i hseq
        split at h
        · simp at h
        · rename_i u started hs
          exact .head ⟨a, started, hseq, hs⟩ (ih h)
      · simp at h

/-- A timing job is created, which leaves it stopped, and its times are updated. -/
def updateStopped : List Action :=
  [.request (.create (bytes "job") ⟨bytes "* * * * *", none, timingExecute, bytes "x"⟩),
    .move 0, .move 0, .move 0,
    .request (.update (bytes "job") ⟨some (bytes "5 * * * *"), none, none, none⟩),
    .move 0, .move 0, .move 0, .move 0, .move 0, .handle]

theorem not_onlyRunnable : ¬ ∀ lib, OnlyRunnable lib Sequential := by
  intro h
  have hrun : ((sequentialRun everyMinute (.make 0) updateStopped).any fun s =>
      s.goroutines.isEmpty && s.inbox.isNone &&
        (bytes "job", .timing (bytes "job")) ∈ s.timeWheel &&
        (s.store.record (bytes "job")).state = stop) = true := by
    decide
  rw [Option.any_eq_true] at hrun
  obtain ⟨s, hs, hall⟩ := hrun
  simp only [Bool.and_eq_true, decide_eq_true_eq, List.isEmpty_iff, Option.isNone_iff_eq_none]
    at hall
  obtain ⟨⟨⟨hg, hin⟩, hwheel⟩, hstate⟩ := hall
  have hquiet : Quiet s := ⟨by simp [hg], hin⟩
  have hruns := h everyMinute 0 s (sequentialRun_reaches hs) hquiet _ _ hwheel
  have hstop : stop ≠ runnable := by decide
  exact hstop (hstate ▸ hruns.2)

end Traitor.Standalone
