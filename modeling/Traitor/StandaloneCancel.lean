import Traitor.Standalone

namespace Traitor.Standalone

open Schedule

variable {lib : Library} {s t : State} {key : Bytes}

def ComesDue (lib : Library) (now : Nat) : Prop :=
  ∃ t : Nat, now ≤ t ∧ ∃ c d, resolveCron lib.cron t c = some (some d) ∧ 0 ≤ d

def Record.ComesDue (lib : Library) (now : Nat) (r : Record) : Prop :=
  r.execType = timingExecute ∧
    ∃ t : Nat, now ≤ t ∧ ∃ d, resolveCron lib.cron t r.cron = some (some d) ∧ 0 ≤ d

/-- The closure has not yet started the script, or it will add the job again. -/
def Goroutine.Pending (lib : Library) (now : Nat) (g : Goroutine) : Prop :=
  match g.point with
  | .call _ | .send _ => True
  | .executed (.timing _) | .getJobInfo => ComesDue lib now
  | .addJob r => r.ComesDue lib now
  | _ => False

/-- The job waits in the wheel or is on its way there, or a closure of it is pending. -/
def Armed (lib : Library) (s : State) (key : Bytes) : Prop :=
  s.alive = true ∧ ((∃ job, (key, job) ∈ s.timeWheel) ∨ (∃ job, s.inbox = some (.add key job)) ∨
    ∃ g ∈ s.goroutines, g.jobId = key ∧ g.Pending lib s.now)

/-- From here the goroutine neither starts a script nor adds a job. -/
def Point.Idle (lib : Library) (now : Nat) : Point → Prop
  | .create runs _ | .hmset runs _ | .sadd runs => runs = false
  | .start enable => enable = false
  | .setState state | .stateChange state => state ≠ runnable
  | .update _ | .updateJob _ | .send _ | .call _ => False
  | .updateScript _ | .cancelJob _ | .srem | .del => True
  | .getJobInfo => ¬ ComesDue lib now
  | .addJob r => ¬ r.ComesDue lib now
  | .executed (.timing _) => ¬ ComesDue lib now
  | .executed _ => True

structure Disarmed (lib : Library) (s : State) (key : Bytes) : Prop where
  timeWheel : ∀ job, (key, job) ∉ s.timeWheel
  inbox : ∀ job, s.inbox ≠ some (.add key job)
  goroutines : ∀ g ∈ s.goroutines, g.jobId = key → g.point.Idle lib s.now

theorem ComesDue.anti {now now' : Nat} (h : ComesDue lib now') (hle : now ≤ now') :
    ComesDue lib now := by
  obtain ⟨t, ht, hd⟩ := h
  exact ⟨t, Nat.le_trans hle ht, hd⟩

theorem Record.ComesDue.anti {r : Record} {now now' : Nat} (h : r.ComesDue lib now')
    (hle : now ≤ now') : r.ComesDue lib now := by
  obtain ⟨htype, t, ht, hd⟩ := h
  exact ⟨htype, t, Nat.le_trans hle ht, hd⟩

theorem Record.ComesDue.comesDue {r : Record} {now : Nat} (h : r.ComesDue lib now) :
    Standalone.ComesDue lib now := by
  obtain ⟨_, t, ht, d, hd⟩ := h
  exact ⟨t, ht, r.cron, d, hd⟩

theorem Point.Idle.mono {p : Point} {now now' : Nat} (h : p.Idle lib now) (hle : now ≤ now') :
    p.Idle lib now' := by
  cases p with
  | getJobInfo => exact fun hc => h (hc.anti hle)
  | addJob r => exact fun hc => h (hc.anti hle)
  | executed job =>
      cases job with
      | timing k => exact fun hc => h (hc.anti hle)
      | exec k => trivial
      | guarded k fn => trivial
  | _ => exact h

/-- Only timing jobs get into the wheel: the instant of any other job is lost. -/
theorem addJob_getJobInfo {now : Nat} {r : Record} {d : Int} {k : Bytes} {job : Task}
    (h : Schedule.addJob lib.cron now (getJobInfo lib key r) = .sent d k job) :
    r.ComesDue lib now := by
  rw [Schedule.addJob] at h
  split at h
  · rename_i htype
    split at h
    · simp at h
    · simp at h
    · rename_i d' hcron
      refine ⟨htype, now, Nat.le_refl _, d', hcron, ?_⟩
      rw [addToWheel] at h
      split at h
      · simp at h
      · omega
  · split at h
    · simp at h
    · rename_i execAt hat
      have hzero : execAt = zeroTime := by
        simp only [getJobInfo] at hat
        split at hat
        · simp at hat
        · split at hat
          · simp at hat
          · exact (Option.some.inj hat).symm
      have hsub : sub execAt now ≤ 0 := by
        rw [hzero, sub, zeroTime, second]
        omega
      simp [hsub] at h

theorem addJob_comesDue {now : Nat} {r : Record} {d : Int} (htype : r.execType = timingExecute)
    (h : resolveCron lib.cron now r.cron = some (some d)) (hd : 0 ≤ d) :
    Schedule.addJob lib.cron now (getJobInfo lib key r) = .sent d key (.timing key) := by
  have hne : ¬ r.execType = delayExecute := by rw [htype]; decide
  simp [Schedule.addJob, getJobInfo, htype, h, addToWheel, Int.not_lt.mpr hd,
    Schedule.createTask, timingExecute, delayExecute]

@[simp, grind =] theorem State.panic_now (s : State) (k : Kind) : (s.panic k).now = s.now := by
  cases k <;> rfl

@[simp, grind =] theorem State.panic_timeWheel (s : State) (k : Kind) :
    (s.panic k).timeWheel = s.timeWheel := by
  cases k <;> rfl

@[simp, grind =] theorem State.panic_inbox (s : State) (k : Kind) :
    (s.panic k).inbox = s.inbox := by
  cases k <;> rfl

@[simp] theorem goOn_jobId (g : Goroutine) (p : Point) : (g.goOn p).jobId = g.jobId := by
  rw [Goroutine.goOn]
  split <;> rfl

@[simp] theorem goOn_point (g : Goroutine) (p : Point) : (g.goOn p).point = p := by
  rw [Goroutine.goOn]
  split <;> rfl

theorem advance_frame {g : Goroutine} {next : Option Point} {started : Bool}
    (h : advance lib s g = some (t, next, started)) :
    t.now = s.now ∧ t.timeWheel = s.timeWheel ∧
      (t.inbox = s.inbox ∨ t.inbox = some (.remove g.jobId) ∨
        ∃ job, g.point = .send job ∧ t.inbox = some (.add g.jobId job)) := by
  simp only [advance] at h
  split at h <;> grind [State.setRecord, State.setKey]

theorem advance_idle {g : Goroutine} {next : Option Point} {started : Bool}
    (h : advance lib s g = some (t, next, started)) (hg : g.point.Idle lib s.now) :
    (∀ p, next = some p → p.Idle lib s.now) ∧ started = false := by
  have hstop : stop ≠ runnable := by decide
  simp only [advance] at h
  split at h <;> grind [Point.Idle, Record.ComesDue.comesDue, → addJob_getJobInfo]

theorem not_mem_add {p : List (Bytes × Task)} (h : ∀ job, (key, job) ∉ p) {k : Bytes} {job : Task}
    (hk : k ≠ key) : ∀ job', (key, job') ∉ p.filter (fun waiting => ¬ waiting.1 = k) ++ [(k, job)] := by
  intro job' hm
  rcases List.mem_append.mp hm with hm | hm
  · exact h job' (List.mem_filter.mp hm).1
  · rw [List.mem_singleton, Prod.mk.injEq] at hm
    exact hk hm.1.symm

theorem Disarmed.request (h : Disarmed lib s key) {r : Request} (hr : ¬ r.Revives key) :
    Disarmed lib { s with goroutines := s.goroutines ++ [⟨r.jobId, .request, r.point⟩] } key := by
  refine ⟨h.timeWheel, h.inbox, fun g hg hk => ?_⟩
  rcases List.mem_append.mp hg with hg | hg
  · exact h.goroutines g hg hk
  · rw [List.mem_singleton.mp hg] at hk ⊢
    cases r with
    | create id job => rfl
    | run id job => exact absurd (decide_eq_true hk) hr
    | start id enable =>
        simp only [Request.Revives, Request.jobId] at hr hk
        simpa [hk, Request.point, Point.Idle] using hr
    | remove id => trivial
    | update id change => exact absurd (decide_eq_true hk) hr
    | updateScript id script => trivial

theorem Disarmed.fire (h : Disarmed lib s key) {i : Nat} {k : Bytes} {job : Task}
    (hi : s.timeWheel[i]? = some (k, job)) :
    Disarmed lib { s with
      timeWheel := s.timeWheel.eraseIdx i
      goroutines := s.goroutines ++ [⟨k, .execution, .call job⟩] } key := by
  refine ⟨fun job' hm => h.timeWheel job' (List.mem_of_mem_eraseIdx hm), h.inbox, fun g hg hk => ?_⟩
  rcases List.mem_append.mp hg with hg | hg
  · exact h.goroutines g hg hk
  · rw [List.mem_singleton.mp hg] at hk
    have hkey : k = key := hk
    exact absurd (hkey ▸ List.mem_of_getElem? hi) (h.timeWheel job)

theorem Disarmed.handle (h : Disarmed lib s key) {m : Message} (hm : s.inbox = some m) :
    Disarmed lib (handle { s with inbox := none } m) key := by
  cases m with
  | add k job =>
      have hk : k ≠ key := fun hk => h.inbox job (hk ▸ hm)
      exact ⟨not_mem_add h.timeWheel hk, by simp [Standalone.handle], h.goroutines⟩
  | remove k =>
      exact ⟨fun job' hj => h.timeWheel job' (List.mem_filter.mp hj).1, by simp [Standalone.handle],
        h.goroutines⟩

theorem Disarmed.move (h : Disarmed lib s key) {i : Nat} {g : Goroutine} {next : Option Point}
    {started : Bool} (hi : s.goroutines[i]? = some g) (hadv : advance lib s g = some (t, next, started)) :
    Disarmed lib { t with goroutines := resume s.goroutines i g next } key := by
  have hg := List.mem_of_getElem? hi
  obtain ⟨hnow, hwheel, hinbox⟩ := advance_frame hadv
  refine ⟨by simpa [hwheel] using h.timeWheel, fun job hj => ?_, fun g' hg' hk => ?_⟩
  · rcases hinbox with hin | hin | ⟨job', hp, hin⟩
    · exact h.inbox job (hin ▸ hj)
    · simp [hin] at hj
    · simp only [hin, Option.some.injEq, Message.add.injEq] at hj
      have hidle := h.goroutines g hg hj.1
      rw [hp] at hidle
      exact hidle
  · rw [hnow]
    cases next with
    | none => exact h.goroutines g' (List.mem_of_mem_eraseIdx hg') hk
    | some p =>
        rcases List.mem_or_eq_of_mem_set hg' with hg' | rfl
        · exact h.goroutines g' hg' hk
        · rw [goOn_jobId] at hk
          rw [goOn_point]
          exact (advance_idle hadv (h.goroutines g hg hk)).1 p rfl

theorem Disarmed.step (h : Disarmed lib s key) {a : Action} {started : Option Bytes}
    (hs : step lib s a = some (t, started)) (ha : ¬ a.Revives key) :
    Disarmed lib t key ∧ started ≠ some key := by
  cases (step_cases hs).2 with
  | pass d =>
      refine ⟨⟨h.timeWheel, h.inbox, fun g hg hk => ?_⟩, by simp⟩
      exact (h.goroutines g hg hk).mono (Nat.le_add_right _ _)
  | request r hr => exact ⟨h.request ha, by simp⟩
  | fire i k job hi => exact ⟨h.fire hi, by simp⟩
  | handle m hm => exact ⟨h.handle hm, by simp⟩
  | move i g u next b hi hadv =>
      refine ⟨h.move hi hadv, fun hstart => ?_⟩
      split at hstart
      · rename_i hb
        have hidle := h.goroutines g (List.mem_of_getElem? hi) (Option.some.inj hstart)
        rw [(advance_idle hadv hidle).2] at hb
        cases hb
      · cases hstart

theorem Disarmed.staysStopped (h : Disarmed lib s key) : StaysStopped lib s key := by
  intro as
  induction as generalizing s with
  | nil =>
      intro t started hr _
      obtain ⟨rfl, rfl⟩ := hr
      simp
  | cons a as ih =>
      intro t started hr ha
      rw [run] at hr
      split at hr
      · simp at hr
      · rename_i u started' hs
        obtain ⟨⟨v, rest⟩, hv, heq⟩ := Option.map_eq_some_iff.mp hr
        simp only [Prod.mk.injEq] at heq
        obtain ⟨-, rfl⟩ := heq
        obtain ⟨hu, hne⟩ := h.step hs (ha a List.mem_cons_self)
        have hrest := ih hu v rest hv (fun b hb => ha b (List.mem_cons_of_mem _ hb))
        intro hm
        rcases List.mem_append.mp hm with hm | hm
        · exact hne (Option.mem_toList.mp hm)
        · exact hrest hm

/-- The script of the job is started in some run without a request to run it. -/
def Revivable (lib : Library) (s : State) (key : Bytes) : Prop :=
  ∃ as t started, run lib s as = some (t, started) ∧ (∀ a ∈ as, ¬ a.Revives key) ∧ key ∈ started

theorem Revivable.not_staysStopped (h : Revivable lib s key) : ¬ StaysStopped lib s key := by
  obtain ⟨as, t, started, hr, ha, hm⟩ := h
  exact fun hs => hs as t started hr ha hm

theorem Revivable.step (h : Revivable lib t key) {a : Action} {k : Option Bytes}
    (hs : step lib s a = some (t, k)) (ha : ¬ a.Revives key) : Revivable lib s key := by
  obtain ⟨as, u, rest, hr, has, hm⟩ := h
  refine ⟨a :: as, u, k.toList ++ rest, by simp [run, hs, hr], ?_, by simp [hm]⟩
  intro b hb
  rcases List.mem_cons.mp hb with rfl | hb
  · exact ha
  · exact has b hb

variable {g : Goroutine}

theorem Revivable.move {i : Nat} {p : Option Point} {b : Bool} (hlive : s.alive = true)
    (hi : s.goroutines[i]? = some g) (hadv : advance lib s g = some (t, p, b))
    (h : Revivable lib { t with goroutines := resume s.goroutines i g p } key) :
    Revivable lib s key := by
  refine h.step (a := .move i) (k := if b then some g.jobId else none) ?_
    (by simp [Action.Revives])
  simp [Standalone.step, hi, hlive, hadv]

theorem Revivable.of_move {i : Nat} {p : Option Point} (hlive : s.alive = true)
    (hi : s.goroutines[i]? = some g) (hadv : advance lib s g = some (t, p, true))
    (hk : g.jobId = key) : Revivable lib s key :=
  ⟨[.move i], _, [key], by simp [run, Standalone.step, hi, hlive, hadv, hk]; rfl,
    by simp [Action.Revives], List.mem_singleton.mpr rfl⟩

theorem Revivable.pass {d : Nat} (hlive : s.alive = true)
    (h : Revivable lib { s with now := s.now + d } key) : Revivable lib s key :=
  h.step (a := .pass d) (k := none) (by simp [Standalone.step, hlive]) (by simp [Action.Revives])

theorem Revivable.create (hkey : key ≠ []) (hlive : s.alive = true) (job : Draft)
    (htype : job.execType = timingExecute ∨ job.execType = delayExecute)
    (hcheck : checkTimeSettings lib s.now job.execType job.cron job.execAt = true)
    (h : Revivable lib { s with
      store := s.store.set key (addFields lib stop job (s.store.record key))
      goroutines := s.goroutines ++ [⟨key, .request, .sadd false⟩] } key) :
    Revivable lib s key := by
  let gs (p : Point) : List Goroutine := s.goroutines ++ [⟨key, .request, p⟩]
  have hlast (p : Point) : (gs p)[s.goroutines.length]? = some ⟨key, .request, p⟩ := by simp [gs]
  have hset (p q : Point) : (gs p).set s.goroutines.length ⟨key, .request, q⟩ = gs q := by
    simp [gs]
  have hadd : Revivable lib { s with goroutines := gs (.hmset false job) } key := by
    refine Revivable.move hlive (hlast _) rfl ?_
    simpa [resume, Goroutine.goOn, hset, State.setRecord] using h
  have hcreate : Revivable lib { s with goroutines := gs (.create false job) } key := by
    refine Revivable.move (t := { s with goroutines := gs (.create false job) }) hlive (hlast _)
      (p := some (.hmset false job)) (b := false) ?_ ?_
    · simp [advance, htype, hcheck]
    · simpa [resume, Goroutine.goOn, hset] using hadd
  refine hcreate.step (a := .request (.create key job)) (k := none) ?_
    (by simp [Action.Revives, Request.Revives])
  simp [Standalone.step, hlive, hkey, Request.jobId, Request.point, gs]

theorem revivable_of_call (hkey : key ≠ []) (hlive : s.alive = true) {j : Task}
    (hg : g ∈ s.goroutines) (hk : g.jobId = key) (hp : g.point = .call j) :
    Revivable lib s key := by
  let draft : Draft := ⟨[], some (s.now + 10), delayExecute, [120]⟩
  apply Revivable.create hkey hlive draft (Or.inr rfl)
  · have hsub : ¬ sub ((s.now : Int) + 10) s.now ≤ 5 := by
      rw [sub, show (s.now : Int) + 10 - s.now = 10 by omega]
      decide
    simp [draft, checkTimeSettings, timingExecute, delayExecute, hsub]
  · obtain ⟨i, hi⟩ := List.mem_iff_getElem?.mp (List.mem_append_left [⟨key, .request, .sadd false⟩] hg)
    exact Revivable.of_move (p := some (.executed j)) hlive hi
      (by simp [advance, hp, hk, Store.set, addFields, draft]; rfl) hk

theorem revivable_of_timeWheel (hkey : key ≠ []) (hlive : s.alive = true) {j : Task}
    (hm : (key, j) ∈ s.timeWheel) : Revivable lib s key := by
  obtain ⟨i, hi⟩ := List.mem_iff_getElem?.mp hm
  refine Revivable.step (a := .fire i) (k := none)
    (revivable_of_call (j := j) hkey (s := { s with
      timeWheel := s.timeWheel.eraseIdx i
      goroutines := s.goroutines ++ [⟨key, .execution, .call j⟩] }) hlive
      (List.mem_append_right _ (List.mem_singleton.mpr rfl)) rfl rfl) ?_ (by simp [Action.Revives])
  simp [Standalone.step, hi, hlive]

theorem revivable_of_inbox (hkey : key ≠ []) (hlive : s.alive = true) {j : Task}
    (hm : s.inbox = some (.add key j)) : Revivable lib s key := by
  refine Revivable.step (a := .handle) (k := none)
    (revivable_of_timeWheel (s := handle { s with inbox := none } (.add key j)) (j := j) hkey
      hlive ?_) ?_ (by simp [Action.Revives])
  · exact List.mem_append_right _ (List.mem_singleton.mpr rfl)
  · simp [Standalone.step, hm, hlive]

theorem revivable_of_send (hkey : key ≠ []) (hlive : s.alive = true) {job : Task}
    (hg : g ∈ s.goroutines) (hk : g.jobId = key) (hp : g.point = .send job) :
    Revivable lib s key := by
  have hfree (u : State) (hlive : u.alive = true) (hg : g ∈ u.goroutines) (hu : u.inbox = none) :
      Revivable lib u key := by
    obtain ⟨i, hi⟩ := List.mem_iff_getElem?.mp hg
    refine Revivable.move (t := { u with inbox := some (.add key job) }) (p := none)
      (b := false) hlive hi ?_ (revivable_of_inbox (j := job) hkey hlive rfl)
    simp [advance, hp, hu, hk]
  cases hin : s.inbox with
  | none => exact hfree s hlive hg hin
  | some m =>
      refine Revivable.step (a := .handle) (k := none)
        (hfree (handle { s with inbox := none } m) ?_ ?_ ?_) ?_ (by simp [Action.Revives])
      · cases m <;> exact hlive
      · cases m <;> exact hg
      · cases m <;> rfl
      · simp [Standalone.step, hin, hlive]

theorem revivable_of_addJob (hkey : key ≠ []) (hlive : s.alive = true) {r : Record}
    (hg : g ∈ s.goroutines) (hk : g.jobId = key) (hp : g.point = .addJob r)
    (hr : r.ComesDue lib s.now) : Revivable lib s key := by
  obtain ⟨htype, t, ht, d, hcron, hd⟩ := hr
  obtain ⟨i, hi⟩ := List.mem_iff_getElem?.mp hg
  have hadd : Schedule.addJob lib.cron t (getJobInfo lib g.jobId r) =
      .sent d g.jobId (.timing g.jobId) := addJob_comesDue htype hcron hd
  apply Revivable.pass (d := t - s.now) hlive
  rw [Nat.add_sub_cancel' ht]
  refine Revivable.move (t := { s with now := t }) (p := some (.send (.timing g.jobId)))
    (b := false) hlive hi ?_ ?_
  · simp [advance, hp, hadd]
  · refine revivable_of_send (g := { g with point := .send (.timing g.jobId) }) hkey hlive ?_ hk rfl
    simpa [resume, Goroutine.goOn, hp] using
      List.mem_set (List.getElem?_eq_some_iff.mp hi).1 { g with point := .send (.timing g.jobId) }

theorem revivable_of_getJobInfo (hkey : key ≠ []) (hlive : s.alive = true)
    (hg : g ∈ s.goroutines) (hk : g.jobId = key) (hp : g.point = .getJobInfo)
    (hr : ComesDue lib s.now) : Revivable lib s key := by
  obtain ⟨t, ht, c, d, hcron, hd⟩ := hr
  have hc : c ≠ [] := by
    rintro rfl
    simp [resolveCron, lib.cron_nil] at hcron
  have hparse : (lib.cron c t).isSome = true := by
    rw [resolveCron] at hcron
    cases hn : lib.cron c t with
    | none => simp [hn] at hcron
    | some next => rfl
  apply Revivable.pass (d := t - s.now) hlive
  rw [Nat.add_sub_cancel' ht]
  let job : Draft := ⟨c, none, timingExecute, [120]⟩
  refine Revivable.create hkey hlive job (Or.inl rfl) (by simpa [job, checkTimeSettings] using hparse) ?_
  let r := addFields lib stop job (s.store.record key)
  have hr : r.ComesDue lib t := ⟨rfl, t, Nat.le_refl _, d, by simpa [r, job, addFields, hc] using hcron, hd⟩
  obtain ⟨i, hi⟩ := List.mem_iff_getElem?.mp (List.mem_append_left [⟨key, .request, .sadd false⟩] hg)
  refine Revivable.move (p := some (.addJob r)) (b := false) hlive hi
    (by simp [advance, hp, hk, Store.set, r]; rfl) ?_
  refine revivable_of_addJob (g := { g with point := .addJob r }) hkey hlive ?_ hk rfl hr
  simpa [resume, Goroutine.goOn, hp] using
    List.mem_set (List.getElem?_eq_some_iff.mp hi).1 { g with point := .addJob r }

theorem revivable_of_executed (hkey : key ≠ []) (hlive : s.alive = true) {k : Bytes}
    (hg : g ∈ s.goroutines) (hk : g.jobId = key) (hp : g.point = .executed (.timing k))
    (hr : ComesDue lib s.now) : Revivable lib s key := by
  obtain ⟨i, hi⟩ := List.mem_iff_getElem?.mp hg
  refine Revivable.move (t := s) (p := some .getJobInfo) (b := false) hlive hi
    (by simp [advance, hp]) ?_
  refine revivable_of_getJobInfo (g := { g with point := .getJobInfo }) hkey hlive ?_ hk rfl hr
  simpa [resume, Goroutine.goOn, hp] using
    List.mem_set (List.getElem?_eq_some_iff.mp hi).1 { g with point := .getJobInfo }

theorem Armed.revivable (h : Armed lib s key) (hkey : key ≠ []) : Revivable lib s key := by
  obtain ⟨hlive, ⟨job, hm⟩ | ⟨job, hm⟩ | ⟨g, hg, hk, hp⟩⟩ := h
  · exact revivable_of_timeWheel hkey hlive hm
  · exact revivable_of_inbox hkey hlive hm
  · rw [Goroutine.Pending] at hp
    split at hp
    · rename_i hcall
      exact revivable_of_call hkey hlive hg hk hcall
    · rename_i hsend
      exact revivable_of_send hkey hlive hg hk hsend
    · rename_i hexecuted
      exact revivable_of_executed hkey hlive hg hk hexecuted hp
    · rename_i hget
      exact revivable_of_getJobInfo hkey hlive hg hk hget hp
    · rename_i hadd
      exact revivable_of_addJob hkey hlive hg hk hadd hp
    · exact hp.elim

theorem idle_of_not_pending {now : Nat} (hg : g.Executing) (h : ¬ g.Pending lib now) :
    g.point.Idle lib now := by
  obtain ⟨_, hpoint⟩ := hg
  rw [Goroutine.Pending] at h
  split at hpoint
  · rename_i hp
    simp [hp] at h
  · rename_i job hp
    rw [hp] at h ⊢
    cases job with
    | timing k => exact h
    | exec k => trivial
    | guarded k fn => trivial
  · rename_i hp
    rw [hp] at h ⊢
    exact h
  · rename_i hp
    rw [hp] at h ⊢
    exact h
  · rename_i hp
    simp [hp] at h
  · exact hpoint.elim

theorem staysStopped_of_dead (h : s.alive = false) : StaysStopped lib s key := by
  intro as t started hr _
  cases as with
  | nil =>
      obtain ⟨-, rfl⟩ := hr
      simp
  | cons a as =>
      have hstep : step lib s a = none := by
        rw [Option.eq_none_iff_forall_ne_some]
        rintro ⟨u, b⟩ hu
        rw [(step_cases hu).1] at h
        cases h
      simp [run, hstep] at hr

theorem staysStopped_iff_not_armed (hkey : key ≠ []) (hs : Settled s key) :
    StaysStopped lib s key ↔ ¬ Armed lib s key := by
  constructor
  · intro h harmed
    exact (harmed.revivable hkey).not_staysStopped h
  · intro h
    cases hlive : s.alive with
    | false => exact staysStopped_of_dead hlive
    | true =>
        refine Disarmed.staysStopped ⟨fun job hm => ?_, fun job hm => ?_, fun g hg hk => ?_⟩
        · exact h ⟨hlive, Or.inl ⟨job, hm⟩⟩
        · exact h ⟨hlive, Or.inr (Or.inl ⟨job, hm⟩)⟩
        · exact idle_of_not_pending (hs g hg hk) fun hp =>
            h ⟨hlive, Or.inr (Or.inr ⟨g, hg, hk, hp⟩)⟩

instance (g : Goroutine) : Decidable g.Executing := by
  unfold Goroutine.Executing
  cases g.point <;> infer_instance

/-- A timing job is run, and while its script is running it is disabled. -/
def disableWhileRunning : List Action :=
  [.request (.run (bytes "job") ⟨bytes "* * * * *", none, timingExecute, bytes "x"⟩),
    .move 0, .move 0, .move 0, .move 0, .move 0, .move 0, .move 0, .handle, .fire 0, .move 0,
    .request (.start (bytes "job") false), .move 1, .move 1, .move 1, .move 1, .handle]

theorem disableWhileRunning_cancelled : Cancelled (bytes "job") disableWhileRunning :=
  ⟨disableWhileRunning.take 11, .request (.start (bytes "job") false), disableWhileRunning.drop 12,
    rfl, rfl, by decide⟩

/-- The closure adds the job again although it is disabled by then. -/
def addAgain : List Action := [.move 0, .move 0, .move 0, .move 0, .handle, .fire 0, .move 0]

theorem disableWhileRunning_run :
    ∃ s started, run everyMinute (.make 0) disableWhileRunning = some (s, started) ∧
      Settled s (bytes "job") ∧ ¬ StaysStopped everyMinute s (bytes "job") := by
  have hlater : ((run everyMinute (.make 0) disableWhileRunning).all fun r =>
      (r.1.goroutines.all fun g => g.Executing) &&
        (run everyMinute r.1 addAgain).any fun q => bytes "job" ∈ q.2) = true := by
    decide
  have hsome : (run everyMinute (.make 0) disableWhileRunning).isSome = true := by decide
  obtain ⟨⟨s, started⟩, hr⟩ := Option.isSome_iff_exists.mp hsome
  rw [hr] at hlater
  simp only [Option.all_some, Bool.and_eq_true, List.all_eq_true, decide_eq_true_eq,
    Option.any_eq_true] at hlater
  obtain ⟨hg, ⟨t, later⟩, ht, hm⟩ := hlater
  refine ⟨s, started, hr, fun g h _ => hg g h, fun hs => ?_⟩
  exact hs addAgain t later ht (by decide) hm

theorem staysStopped_iff_not_armed_running :
    ∃ s started, run everyMinute (.make 0) disableWhileRunning = some (s, started) ∧
      (StaysStopped everyMinute s (bytes "job") ↔ ¬ Armed everyMinute s (bytes "job")) := by
  obtain ⟨s, started, hr, hs, _⟩ := disableWhileRunning_run
  exact ⟨s, started, hr, staysStopped_iff_not_armed (by decide) hs⟩

theorem not_staysStopped_of_cancelled :
    ¬ ∀ (lib : Library) (now : Nat) (as : List Action) (s : State) (started : List Bytes)
      (key : Bytes), run lib (.make now) as = some (s, started) → key ≠ [] →
        Cancelled key as → Settled s key → StaysStopped lib s key := by
  intro h
  obtain ⟨s, started, hr, hs, hnot⟩ := disableWhileRunning_run
  exact hnot (h everyMinute 0 disableWhileRunning s started _ hr (by decide)
    disableWhileRunning_cancelled hs)

end Traitor.Standalone
