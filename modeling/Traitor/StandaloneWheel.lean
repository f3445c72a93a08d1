import Mathlib.Logic.Relation
import Traitor.StandaloneCancel

namespace Traitor.Standalone

open Schedule

variable {lib : Library} {s t u : State} {key : Bytes} {g : Goroutine} {next : Option Point}
  {b : Bool} {i : Nat}

def Reaches (lib : Library) (ok : State → Action → Prop) : State → State → Prop :=
  Relation.ReflTransGen fun s t => ∃ a started, ok s a ∧ step lib s a = some (t, started)

/-- A request comes in when all others have been handled. -/
def Sequential (s : State) (a : Action) : Prop :=
  ∀ r, a = .request r → ∀ g ∈ s.goroutines, g.kind = .execution

/-- No request is being handled, and the wheel has handled what it was handed. -/
def Quiet (s : State) : Prop :=
  (∀ g ∈ s.goroutines, g.kind = .execution) ∧ s.inbox = none

def own (s : State) (key : Bytes) : List Goroutine :=
  s.goroutines.filter fun g => g.jobId = key

def handlers (s : State) (key : Bytes) : List Goroutine :=
  (own s key).filter fun g => ¬ g.kind = .execution

def phase (s : State) (key : Bytes) : Option Point :=
  (handlers s key).head?.map Goroutine.point

def InWheel (s : State) (key : Bytes) : Prop :=
  (∃ job, (key, job) ∈ s.timeWheel) ∧ s.inbox ≠ some (.remove key) ∨
    ∃ job, s.inbox = some (.add key job)

/-- The closures of the job that the wheel has called and that have not returned. -/
def executions (s : State) (key : Bytes) : List Goroutine :=
  (own s key).filter fun g => g.kind = .execution

def SameJob (key : Bytes) (s t : State) : Prop :=
  t.store.record key = s.store.record key ∧ t.store.jobKeys key = s.store.jobKeys key

structure Calm (s : State) (key : Bytes) : Prop where
  executing : ∀ g ∈ executions s key, g.Executing
  single : (handlers s key).length ≤ 1

inductive Turn (lib : Library) (key : Bytes) (s : State) (a : Action) (t : State) : Prop
  | same (job : SameJob key s t) (hwheel : InWheel t key ↔ InWheel s key)
      (hown : own t key = own s key) (hnow : s.now ≤ t.now)
  | request (r : Request) (ha : a = .request r) (hk : r.jobId = key)
      (ht : t = { s with goroutines := s.goroutines ++ [⟨key, .request, r.point⟩] })
  | fire (task : Task) (job : SameJob key s t) (hwheel : InWheel t key → InWheel s key)
      (hown : own t key = own s key ++ [⟨key, .execution, .call task⟩]) (hnow : t.now = s.now)
  | move (i : Nat) (g : Goroutine) (u : State) (next : Option Point) (b : Bool)
      (l₁ l₂ : List Goroutine) (ha : a = .move i) (hi : s.goroutines[i]? = some g)
      (hk : g.jobId = key) (hadv : advance lib s g = some (u, next, b))
      (ht : t = { u with goroutines := resume s.goroutines i g next })
      (hs : own s key = l₁ ++ g :: l₂) (hown : own t key = l₁ ++ (next.map g.goOn).toList ++ l₂)

theorem getElem?_split {α : Type} {l : List α} {i : Nat} {x : α} (h : l[i]? = some x) :
    ∃ l₁ l₂, l = l₁ ++ x :: l₂ ∧ l₁.length = i := by
  obtain ⟨hi, hx⟩ := List.getElem?_eq_some_iff.mp h
  refine ⟨l.take i, l.drop (i + 1), ?_, by simp; omega⟩
  rw [← hx, List.getElem_cons_drop, List.take_append_drop]

theorem resume_append (l₁ l₂ : List Goroutine) (g : Goroutine) (next : Option Point) :
    resume (l₁ ++ g :: l₂) l₁.length g next = l₁ ++ (next.map g.goOn).toList ++ l₂ := by
  cases next with
  | none => simp [resume, List.eraseIdx_append_of_length_le]
  | some p => simp [resume]

@[simp, grind =] theorem setRecord_record (s : State) (k k' : Bytes) (r : Record) :
    (s.setRecord k r).store.record k' = if k' = k then r else s.store.record k' := by
  simp [State.setRecord, Store.set, Function.update_apply]

@[simp, grind =] theorem setRecord_jobKeys (s : State) (k : Bytes) (r : Record) :
    (s.setRecord k r).store.jobKeys = s.store.jobKeys := rfl

@[simp, grind =] theorem setKey_record (s : State) (k : Bytes) (m : Bool) :
    (s.setKey k m).store.record = s.store.record := rfl

@[simp, grind =] theorem setKey_jobKeys (s : State) (k k' : Bytes) (m : Bool) :
    (s.setKey k m).store.jobKeys k' = if k' = k then m else s.store.jobKeys k' := by
  simp [State.setKey, Function.update_apply]

@[simp, grind =] theorem State.panic_store (s : State) (k : Kind) : (s.panic k).store = s.store := by
  cases k <;> rfl

theorem advance_store {k : Bytes} (h : advance lib s g = some (u, next, b)) (hk : g.jobId ≠ k) :
    SameJob k s u := by
  have hne : k ≠ g.jobId := fun he => hk he.symm
  simp only [advance] at h
  split at h <;> grind [SameJob]

/-- What is handed to the wheel is handed when it has nothing to handle. -/
theorem advance_inbox (h : advance lib s g = some (u, next, b)) : u.inbox = s.inbox ∨
    s.inbox = none ∧ (u.inbox = some (.remove g.jobId) ∨ ∃ job, u.inbox = some (.add g.jobId job)) := by
  simp only [advance] at h
  split at h <;> grind [State.setRecord, State.setKey]

theorem advance_inWheel {k : Bytes} (h : advance lib s g = some (u, next, b)) (hk : g.jobId ≠ k) :
    InWheel u k ↔ InWheel s k := by
  obtain ⟨-, hwheel, -⟩ := advance_frame h
  rcases advance_inbox h with hin | ⟨hnone, hin | ⟨job, hin⟩⟩
  · simp [InWheel, hwheel, hin]
  · simp [InWheel, hwheel, hin, hnone, hk]
  · simp [InWheel, hwheel, hin, hnone, hk]

theorem inWheel_handle {m : Message} (hm : s.inbox = some m) :
    InWheel (handle { s with inbox := none } m) key ↔ InWheel s key := by
  cases m with
  | add k job =>
      by_cases hk : k = key
      · subst hk
        simp [InWheel, handle, hm]
      · have hkey : ¬ key = k := fun he => hk he.symm
        simp [InWheel, handle, hm, hk, hkey]
  | remove k =>
      by_cases hk : k = key
      · subst hk
        simp [InWheel, handle, hm]
      · have hkey : ¬ key = k := fun he => hk he.symm
        simp [InWheel, handle, hm, hk, hkey]

theorem own_resume (h : s.goroutines[i]? = some g) (u : State) :
    ∃ l₁ l₂, (own s key = l₁ ++ [g].filter (fun g => g.jobId = key) ++ l₂) ∧
      own { u with goroutines := resume s.goroutines i g next } key =
        l₁ ++ (next.map g.goOn).toList.filter (fun g => g.jobId = key) ++ l₂ := by
  obtain ⟨l₁, l₂, hl, rfl⟩ := getElem?_split h
  refine ⟨l₁.filter fun g => g.jobId = key, l₂.filter fun g => g.jobId = key, ?_, ?_⟩
  · rw [own, hl, ← List.singleton_append, List.filter_append, List.filter_append,
      List.append_assoc]
  · simp only [own, hl, resume_append, List.filter_append]

theorem Turn.of_step {a : Action} {started : Option Bytes}
    (h : step lib s a = some (t, started)) : Turn lib key s a t := by
  cases (step_cases h).2 with
  | pass d => exact .same ⟨rfl, rfl⟩ .rfl rfl (Nat.le_add_right _ _)
  | request r hr =>
      by_cases hk : r.jobId = key
      · exact .request r rfl hk (by rw [hk])
      · exact .same ⟨rfl, rfl⟩ .rfl (by simp [own, hk]) (Nat.le_refl _)
  | fire i k job hi =>
      by_cases hk : k = key
      · subst hk
        refine .fire job ⟨rfl, rfl⟩ ?_ (by simp [own]) rfl
        rintro (⟨⟨job', hm⟩, hin⟩ | hin)
        · exact .inl ⟨⟨job', List.mem_of_mem_eraseIdx hm⟩, hin⟩
        · exact .inr hin
      · obtain ⟨l₁, l₂, hl, rfl⟩ := getElem?_split hi
        refine .same ⟨rfl, rfl⟩ ?_ (by simp [own, hk]) (Nat.le_refl _)
        have hkey : ¬ key = k := fun he => hk he.symm
        simp [InWheel, hl, List.eraseIdx_append_of_length_le, hkey]
  | handle m hm =>
      refine .same ?_ (inWheel_handle hm) ?_ ?_
      · cases m <;> exact ⟨rfl, rfl⟩
      · cases m <;> rfl
      · cases m <;> exact Nat.le_refl _
  | move i g u next b hi hadv =>
      obtain ⟨l₁, l₂, hs, ht⟩ :
          ∃ l₁ l₂, (own s key = l₁ ++ [g].filter (fun g => g.jobId = key) ++ l₂) ∧
            own { u with goroutines := resume s.goroutines i g next } key =
              l₁ ++ (next.map g.goOn).toList.filter (fun g => g.jobId = key) ++ l₂ :=
        own_resume hi u
      have hnow := (advance_frame hadv).1
      by_cases hk : g.jobId = key
      · refine .move i g u next b l₁ l₂ rfl hi hk hadv rfl (by simpa [hk] using hs) ?_
        rw [ht]
        cases next <;> simp [hk]
      · have hjob : SameJob key s u := advance_store hadv hk
        have hwheel : InWheel u key ↔ InWheel s key := advance_inWheel hadv hk
        refine .same hjob hwheel ?_ (Nat.le_of_eq hnow.symm)
        rw [hs, ht]
        cases next <;> simp [hk]

/-- A closure changes nothing until it hands the job to the wheel. -/
theorem advance_executing (h : advance lib s g = some (u, next, b)) (hg : g.Executing) :
    (u = s ∧ (∀ job, g.point ≠ .send job) ∧
        ∀ p, next = some p → (g.goOn p).Executing) ∨
      (∃ job, g.point = .send job) ∧ s.inbox = none ∧ next = none ∧
        ∃ job, u = { s with inbox := some (.add g.jobId job) } := by
  obtain ⟨hkind, hp⟩ := hg
  have hpanic : s.panic g.kind = s := by rw [hkind]; rfl
  simp only [advance] at h
  split at h <;> grind [Goroutine.Executing, Goroutine.goOn]

theorem Goroutine.goOn_kind (hg : g.Executing) (p : Point) : (g.goOn p).kind = .execution := by
  rw [Goroutine.goOn]
  split
  · rename_i heq
    have := hg.2
    simp [heq] at this
  · exact hg.1

theorem Goroutine.goOn_handler (hg : ¬ g.kind = .execution) (p : Point) :
    ¬ (g.goOn p).kind = .execution := by
  rw [Goroutine.goOn]
  split
  · simp
  · exact hg

/-- Either a closure of the job moves on or the one handler that there is. -/
theorem Calm.move {l₁ l₂ : List Goroutine} (h : Calm s key) (hs : own s key = l₁ ++ g :: l₂)
    (ht : own t key = l₁ ++ (next.map g.goOn).toList ++ l₂) :
    (g.Executing ∧ handlers t key = handlers s key ∧
      (next ≠ none → executions t key ≠ []) ∧
      (executions s key).length ≤ (executions t key).length + 1 ∧
      ∀ g' ∈ executions t key, g' ∈ executions s key ∨ ∃ p, next = some p ∧ g' = g.goOn p) ∨
    (handlers s key = [g] ∧ handlers t key = (next.map g.goOn).toList ∧
      executions t key = executions s key) := by
  by_cases hkind : g.kind = .execution
  · left
    have hg : g.Executing := h.executing g (by simp [executions, hs, hkind])
    refine ⟨hg, ?_⟩
    cases next with
    | none => simp [handlers, executions, hs, ht, hkind]; grind
    | some p => simp [handlers, executions, hs, ht, hkind, g.goOn_kind hg]; grind
  · right
    have hsingle := h.single
    simp only [handlers, hs, List.filter_append, List.filter_cons, hkind, not_false_eq_true,
      decide_true, if_true, List.length_append, List.length_cons] at hsingle
    obtain ⟨h₁, h₂⟩ : (l₁.filter fun g => ¬ g.kind = .execution) = [] ∧
        (l₂.filter fun g => ¬ g.kind = .execution) = [] := by
      constructor <;> apply List.eq_nil_of_length_eq_zero <;> omega
    refine ⟨?_, ?_, ?_⟩
    · rw [handlers, hs, List.filter_append, List.filter_cons, h₁, h₂]
      simp [hkind]
    · rw [handlers, ht, List.filter_append, List.filter_append, h₁, h₂]
      cases next with
      | none => rfl
      | some p => simp [g.goOn_handler hkind]
    · cases next with
      | none => simp [executions, hs, ht, hkind]
      | some p => simp [executions, hs, ht, hkind, g.goOn_handler hkind]

theorem phase_nil (h : ∀ g ∈ s.goroutines, g.kind = .execution) : phase s key = none := by
  have hnil : handlers s key = [] := by
    rw [handlers, List.filter_eq_nil_iff]
    intro g hg
    simp [h g (List.mem_filter.mp hg).1]
  rw [phase, hnil]
  rfl

inductive CalmTurn (lib : Library) (key : Bytes) (s : State) (a : Action) (t : State) : Prop
  | same (job : SameJob key s t) (hwheel : InWheel t key ↔ InWheel s key)
      (hphase : phase t key = phase s key) (hexec : executions t key = executions s key)
      (hnow : s.now ≤ t.now)
  | request (r : Request) (ha : a = .request r) (hk : r.jobId = key) (job : SameJob key s t)
      (hwheel : InWheel t key ↔ InWheel s key) (hs : phase s key = none)
      (hphase : phase t key = some r.point) (hexec : executions t key = executions s key)
      (hnow : t.now = s.now)
  | fire (job : SameJob key s t) (hwheel : InWheel t key → InWheel s key)
      (hphase : phase t key = phase s key) (hexec : executions t key ≠ []) (hnow : t.now = s.now)
  | execute (i : Nat) (g : Goroutine) (u : State) (next : Option Point) (b : Bool)
      (ha : a = .move i) (hi : s.goroutines[i]? = some g) (hk : g.jobId = key) (hg : g.Executing)
      (hadv : advance lib s g = some (u, next, b))
      (ht : t = { u with goroutines := resume s.goroutines i g next })
      (hphase : phase t key = phase s key) (hexec : next ≠ none → executions t key ≠ [])
      (hlen : (executions s key).length ≤ (executions t key).length + 1)
  | serve (i : Nat) (g : Goroutine) (u : State) (next : Option Point) (b : Bool)
      (ha : a = .move i) (hi : s.goroutines[i]? = some g) (hk : g.jobId = key)
      (hg : ¬ g.kind = .execution) (hadv : advance lib s g = some (u, next, b))
      (ht : t = { u with goroutines := resume s.goroutines i g next })
      (hs : phase s key = some g.point) (hphase : phase t key = next)
      (hexec : executions t key = executions s key)

theorem Calm.step {a : Action} {started : Option Bytes} (h : Calm s key)
    (hseq : ∀ r, a = .request r → r.jobId = key → phase s key = none)
    (hs : step lib s a = some (t, started)) : Calm t key ∧ CalmTurn lib key s a t := by
  have hturn : Turn lib key s a t := .of_step hs
  rcases hturn with ⟨job, hwheel, hown, hnow⟩ | ⟨r, rfl, hk, rfl⟩ |
    ⟨task, job, hwheel, hown, hnow⟩ | ⟨i, g, u, next, b, l₁, l₂, rfl, hi, rfl, hadv, rfl, hl, ht⟩
  · have hh : handlers t key = handlers s key := by rw [handlers, handlers, hown]
    have he : executions t key = executions s key := by rw [executions, executions, hown]
    exact ⟨⟨he ▸ h.executing, hh ▸ h.single⟩, .same job hwheel (by rw [phase, phase, hh]) he hnow⟩
  · have hnil : phase s key = none := hseq r rfl hk
    have hs : handlers s key = [] := by simpa [phase] using hnil
    have hown : own { s with goroutines := s.goroutines ++ [⟨key, .request, r.point⟩] } key =
        own s key ++ [⟨key, .request, r.point⟩] := by simp [own]
    have hh : handlers { s with goroutines := s.goroutines ++ [⟨key, .request, r.point⟩] } key =
        [⟨key, .request, r.point⟩] := by
      rw [handlers, hown, List.filter_append, ← handlers, hs]
      simp
    have he : executions { s with goroutines := s.goroutines ++ [⟨key, .request, r.point⟩] } key =
        executions s key := by simp [executions, hown]
    exact ⟨⟨he ▸ h.executing, by simp [hh]⟩,
      .request r rfl hk ⟨rfl, rfl⟩ .rfl hnil (by simp [phase, hh]) he rfl⟩
  · have hh : handlers t key = handlers s key := by simp [handlers, hown]
    have he : executions t key = executions s key ++ [⟨key, .execution, .call task⟩] := by
      simp [executions, hown]
    refine ⟨⟨?_, hh ▸ h.single⟩, .fire job hwheel (by rw [phase, phase, hh]) (by simp [he]) hnow⟩
    rw [he]
    intro g hg
    rcases List.mem_append.mp hg with hg | hg
    · exact h.executing g hg
    · rw [List.mem_singleton.mp hg]
      exact ⟨rfl, trivial⟩
  · rcases h.move hl ht with ⟨hg, hh, hne, hlen, hmem⟩ | ⟨hh, hn, he⟩
    · refine ⟨⟨fun g' hg' => ?_, hh ▸ h.single⟩,
        .execute i g u next b rfl hi rfl hg hadv rfl (by rw [phase, phase, hh]) hne hlen⟩
      rcases hmem g' hg' with hg' | ⟨p, rfl, rfl⟩
      · exact h.executing g' hg'
      · rcases advance_executing hadv hg with ⟨-, -, hp⟩ | ⟨-, -, hp, -⟩
        · exact hp p rfl
        · simp at hp
    · have hkind : ¬ g.kind = .execution := by
        have hg : g ∈ handlers s g.jobId := by simp [hh]
        simpa using (List.mem_filter.mp hg).2
      refine ⟨⟨he ▸ h.executing, ?_⟩,
        .serve i g u next b rfl hi rfl hkind hadv rfl (by simp [phase, hh]) ?_ he⟩
      · rw [hn]
        cases next <;> simp
      · rw [phase, hn]
        cases next <;> simp

end Traitor.Standalone
