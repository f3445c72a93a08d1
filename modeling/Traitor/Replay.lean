import Traitor.Reads

namespace Traitor.Database

open Lib.Effects Lib.Strconv Protocol

variable {σ : Type}

def Env.atTime (env : Env σ) (t : Int) : Env σ := { env with now := t }

def World.empty : World σ := ⟨⟨∅, ∅, fun _ => 0⟩, []⟩

section

variable [LinearOrder σ] [Inhabited σ] (env : Env σ)

/-- Each line is executed, whatever it answers. What it hands on is not kept. -/
def loadAof (lines : List CmdLine) (w : World σ) : World σ :=
  lines.foldl (fun w line => (exec env line w).2) w

@[simp] theorem loadAof_nil (w : World σ) : loadAof env [] w = w := rfl

@[simp] theorem loadAof_cons (line : CmdLine) (lines : List CmdLine) (w : World σ) :
    loadAof env (line :: lines) w = loadAof env lines (exec env line w).2 := rfl

theorem loadAof_append (lines lines' : List CmdLine) (w : World σ) :
    loadAof env (lines ++ lines') w = loadAof env lines' (loadAof env lines w) :=
  List.foldl_append

omit [LinearOrder σ] [Inhabited σ] in
theorem final_eq {α : Type} {m : Exec σ α} {w w' : World σ} (h : wp m (fun _ t => t = w') w) :
    final m w = w' :=
  (wp_iff m _ w).mp h

def World.versions (w : World σ) (versionMap : Bytes → UInt32) : World σ :=
  { w with db := { w.db with versionMap := versionMap } }

omit [LinearOrder σ] [Inhabited σ] in
theorem wp_addVersion (keys : List Bytes) (w : World σ) :
    wp (addVersion keys) (fun r w' => r = some ⟨⟩ ∧ ∃ versionMap, w' = w.versions versionMap) w := by
  induction keys generalizing w with
  | nil => exact ⟨rfl, w.db.versionMap, rfl⟩
  | cons key keys ih =>
      have hcons : addVersion (σ := σ) (key :: keys) = modifyDB (fun db => { db with
          versionMap := Function.update db.versionMap key (db.versionMap key + 1) }) >>= fun _ =>
            addVersion keys := rfl
      rw [hcons, wp_bind, wp_modifyDB]
      exact wp_mono (ih _) fun r w' ⟨hr, versionMap, h⟩ => ⟨hr, versionMap, h⟩

variable {env} {name : Slice} {args : List Slice} {c : CommandName} {w : World σ}

theorem exec_command (hc : cmdTable (toLower (text name)) = some c)
    (harity : validateArity (command env c).arity (name :: args) = true) :
    ∃ versionMap, (exec env (name :: args) w).2 =
      final ((command env c).executor args) (w.versions versionMap) := by
  have hfinal : wp (execNormalCommand env (name :: args)) (fun _ w' => ∃ versionMap,
      w' = final ((command env c).executor args) (w.versions versionMap)) w := by
    simp only [execNormalCommand, findCommand, hc, harity, if_true, wp_bind, wp_pure]
    apply wp_mono (wp_addVersion _ w)
    rintro r w' ⟨rfl, versionMap, rfl⟩
    exact (wp_iff _ _ _).mpr ⟨versionMap, rfl⟩
  exact (wp_iff _ _ w).mp hfinal

theorem exec_unknown (hc : cmdTable (toLower (text name)) = none) :
    (exec env (name :: args) w).2 = w := by
  apply final_eq
  simp [execNormalCommand, findCommand, hc]

theorem exec_badArity (hc : cmdTable (toLower (text name)) = some c)
    (harity : validateArity (command env c).arity (name :: args) = false) :
    (exec env (name :: args) w).2 = w := by
  apply final_eq
  simp [execNormalCommand, findCommand, hc, harity]

theorem exec_nil : (exec env [] w).2 = w := by
  have hwp : wp (execNormalCommand env []) (fun _ w' => w' = w) w := by
    simp [execNormalCommand, findCommand]
  exact final_eq hwp

end

section

variable {env : Env σ} {T t : Int} {db db' : DB σ} {key k : Bytes}

structure Slot (σ : Type) where
  data : Option (Entity σ)
  ttl : Option Int

namespace Slot

def isExpired (s : Slot σ) (t : Int) : Bool := s.ttl.any (· < t)

def live (s : Slot σ) (t : Int) : Option (Entity σ) := if s.isExpired t then none else s.data

def Whole (s : Slot σ) : Prop := s.data = none → s.ttl = none

def empty : Slot σ := ⟨none, none⟩

def evict (s : Slot σ) (t : Int) : Slot σ := if s.data.isSome ∧ s.isExpired t then empty else s

theorem evict_of_live {s : Slot σ} (h : s.live t ≠ none) : s.evict t = s := by
  rw [evict, if_neg]
  rintro ⟨-, he⟩
  simp [live, he] at h

theorem evict_of_not_live {s : Slot σ} (hwhole : s.Whole) (h : s.live t = none) :
    s.evict t = empty := by
  obtain ⟨data, ttl⟩ := s
  rw [evict]
  split
  · rfl
  · rename_i hs
    cases data with
    | none =>
        obtain rfl : ttl = none := hwhole rfl
        rfl
    | some e =>
        rw [live] at h
        split at h
        · rename_i he
          exact absurd ⟨rfl, he⟩ hs
        · simp at h

theorem live_data {s : Slot σ} {e : Entity σ} (h : s.live t = some e) : s.data = some e := by
  rw [live] at h
  split at h
  · simp at h
  · exact h

end Slot

namespace DB

def slot (db : DB σ) (key : Bytes) : Slot σ := ⟨db.data.lookup key, db.ttlMap.lookup key⟩

theorem isExpired_slot (db : DB σ) (key : Bytes) :
    db.isExpired env key = (db.slot key).isExpired env.now := by
  rw [isExpired, Slot.isExpired, slot]
  cases db.ttlMap.lookup key <;> rfl

theorem live_slot (db : DB σ) (key : Bytes) : db.live env key = (db.slot key).live env.now := by
  rw [live, Slot.live, isExpired_slot]
  rfl

@[simp] theorem slot_put (e : Entity σ) :
    (db.put key e).slot k = if k = key then ⟨some e, (db.slot key).ttl⟩ else db.slot k := by
  by_cases hk : k = key
  · subst hk
    simp [slot, put]
  · simp [slot, put, hk]

@[simp] theorem slot_remove :
    (db.remove key).slot k = if k = key then .empty else db.slot k := by
  by_cases hk : k = key
  · subst hk
    simp [slot, remove, Slot.empty]
  · simp [slot, remove, hk]

@[simp] theorem slot_expire (e : Int) :
    (db.expire key e).slot k = if k = key then ⟨(db.slot key).data, some e⟩ else db.slot k := by
  by_cases hk : k = key
  · subst hk
    simp [slot, expire]
  · simp [slot, expire, hk]

@[simp] theorem slot_persist :
    (db.persist key).slot k = if k = key then ⟨(db.slot key).data, none⟩ else db.slot k := by
  by_cases hk : k = key
  · subst hk
    simp [slot, persist]
  · simp [slot, persist, hk]

@[simp] theorem slot_evict :
    (db.evict env key).slot k = if k = key then (db.slot key).evict env.now else db.slot k := by
  rw [evict, isExpired_slot]
  by_cases hk : k = key
  · subst hk
    have hevict : (db.slot k).evict env.now = if (db.data.lookup k).isSome ∧
        (db.slot k).isExpired env.now then Slot.empty else db.slot k := rfl
    rw [if_pos rfl, hevict]
    split
    · simp
    · rfl
  · rw [if_neg hk]
    split
    · simp [hk]
    · rfl

end DB

@[simp] theorem World.slot_versions (w : World σ) (versionMap : Bytes → UInt32) :
    (w.versions versionMap).db.slot = w.db.slot := rfl

/-- The expiration after a restart: what is logged are milliseconds. -/
def replayed (e : Int) : Int := wrap64 ((unixNano e).tdiv millisecond * millisecond)

def SameTTL (T : Int) : Option Int → Option Int → Prop
  | none, none => True
  | some e, some e' => T ≤ e ∧ T ≤ e' ∧ e.fdiv millisecond = e'.fdiv millisecond
  | _, _ => False

/-- What is under a key, and what is there when the log is loaded at a time: the same, or
on both sides nothing that is still live at that time. -/
structure Matches (T : Int) (lingers : Prop) (s s' : Slot σ) : Prop where
  whole : s.Whole
  whole' : s'.Whole
  eq : s.data = s'.data ∧ SameTTL T s.ttl s'.ttl ∨
    s.live T = none ∧ s'.live T = none ∧ (s'.data ≠ none → lingers)

/-- The key is there at the time of the load, too, if it is there at all. -/
def Slot.Lasting (T : Int) (s : Slot σ) : Prop := ∀ e, s.ttl = some e → T ≤ e

def Dated (T e : Int) : Prop :=
  (e < T ↔ replayed e < T) ∧ (T ≤ e → e.fdiv millisecond = (replayed e).fdiv millisecond)

namespace Matches

variable {s s' u : Slot σ} {lingers lingers' : Prop} {d : Entity σ} {e : Int}

theorem sameTTL_lasting {o o' : Option Int} (h : SameTTL T o o') : ∀ e, o = some e → T ≤ e := by
  rintro e rfl
  cases o' with
  | none => exact h.elim
  | some e' => exact h.1

theorem live_of_lasting (h : s.Lasting T) : s.live T = s.data := by
  rw [Slot.live, if_neg]
  simp only [Slot.isExpired, Option.any_eq_true, decide_eq_true_eq, not_exists, not_and]
  intro e he
  have := h e he
  omega

theorem sameTTL_symm_lasting {o o' : Option Int} (h : SameTTL T o o') : ∀ e, o' = some e → T ≤ e := by
  rintro e rfl
  cases o with
  | none => exact h.elim
  | some e' => exact h.2.1

/-- A key that is live and stays so is the same after a load. -/
theorem same (h : Matches T lingers s s') (hlive : s.data ≠ none) (hlast : s.Lasting T) :
    s.data = s'.data ∧ SameTTL T s.ttl s'.ttl ∧ s'.live T = s'.data := by
  rcases h.eq with ⟨hdata, httl⟩ | ⟨hgone, -⟩
  · exact ⟨hdata, httl, live_of_lasting (sameTTL_symm_lasting httl)⟩
  · rw [live_of_lasting hlast] at hgone
    exact absurd hgone hlive

/-- A key that is gone now is gone in the load. -/
theorem gone (h : Matches T lingers s s') (ht : t ≤ T) (hlive : s.live t = none) :
    s'.live T = none := by
  rcases h.eq with ⟨hdata, httl⟩ | ⟨-, hgone, -⟩
  · rw [Slot.live] at hlive
    split at hlive
    · rename_i he
      simp only [Slot.isExpired, Option.any_eq_true, decide_eq_true_eq] at he
      obtain ⟨e, he, hlt⟩ := he
      have := sameTTL_lasting httl e he
      omega
    · rw [Slot.live]
      split
      · rfl
      · exact hdata ▸ hlive
  · exact hgone

theorem written (d : Entity σ) : Matches T lingers ⟨some d, none⟩ ⟨some d, none⟩ :=
  ⟨by simp [Slot.Whole], by simp [Slot.Whole], .inl ⟨rfl, trivial⟩⟩

theorem cleared : Matches (σ := σ) T lingers .empty .empty :=
  ⟨fun _ => rfl, fun _ => rfl, .inl ⟨rfl, trivial⟩⟩

theorem evict (h : Matches T lingers s s') (ht : t ≤ T) : Matches T lingers (s.evict t) s' := by
  rw [Slot.evict]
  split
  · rename_i he
    have hlive : s.live t = none := by rw [Slot.live, if_pos he.2]
    refine ⟨fun _ => rfl, h.whole', ?_⟩
    rcases h.eq with ⟨hdata, httl⟩ | ⟨-, hgone, hl⟩
    · refine .inr ⟨rfl, h.gone ht hlive, fun _ => ?_⟩
      simp only [Slot.isExpired, Option.any_eq_true, decide_eq_true_eq] at he
      obtain ⟨-, e, he, hlt⟩ := he
      have := sameTTL_lasting httl e he
      omega
    · exact .inr ⟨rfl, hgone, hl⟩
  · exact h

/-- The value of a key that is there is replaced. -/
theorem replace (h : Matches T lingers s s') (hlive : s.data ≠ none) (hlast : s.Lasting T) :
    Matches T lingers' ⟨some d, s.ttl⟩ ⟨some d, s'.ttl⟩ :=
  ⟨by simp [Slot.Whole], by simp [Slot.Whole], .inl ⟨rfl, (h.same hlive hlast).2.1⟩⟩

theorem expire (h : Matches T lingers s s') (hlive : s.data ≠ none) (hdated : Dated T e)
    (hlast : s.Lasting T ∨ e < T) (hl : lingers') :
    Matches T lingers' ⟨s.data, some e⟩
      (if s'.live T = none then .empty else ⟨s'.data, some (replayed e)⟩) := by
  have hwhole : Slot.Whole (⟨s.data, some e⟩ : Slot σ) := fun hn => absurd hn hlive
  have hdead (he : e < T) (d : Option (Entity σ)) : Slot.live (⟨d, some e⟩ : Slot σ) T = none := by
    simp [Slot.live, Slot.isExpired, he]
  split
  · rename_i hnone
    have hlt : e < T := by
      rcases hlast with hlast | he
      · have hsame := h.same hlive hlast
        rw [hsame.2.2, ← hsame.1] at hnone
        exact absurd hnone hlive
      · exact he
    exact ⟨hwhole, fun _ => rfl, .inr ⟨hdead hlt _, rfl, fun hn => absurd rfl hn⟩⟩
  · rename_i hsome
    have hdata' : s'.data ≠ none := by
      intro hn
      rw [Slot.live, hn, ite_self] at hsome
      exact hsome rfl
    refine ⟨hwhole, fun hn => absurd hn hdata', ?_⟩
    have hsame : s.data = s'.data := by
      rcases h.eq with ⟨hdata, -⟩ | ⟨-, hgone, -⟩
      · exact hdata
      · exact absurd hgone hsome
    by_cases he : e < T
    · refine .inr ⟨hdead he _, ?_, fun _ => hl⟩
      simp [Slot.live, Slot.isExpired, hdated.1.mp he]
    · have he' : T ≤ replayed e := by
        have := hdated.1.not.mp he
        omega
      exact .inl ⟨hsame, by omega, he', hdated.2 (by omega)⟩

theorem persist (h : Matches T lingers s s') (hlive : s.data ≠ none) (hlast : s.Lasting T) :
    Matches T lingers' ⟨s.data, none⟩ ⟨s'.data, none⟩ := by
  obtain ⟨hdata, -⟩ := h.same hlive hlast
  exact ⟨fun hn => absurd hn hlive, fun hn => absurd (hdata.trans hn) hlive, .inl ⟨hdata, trivial⟩⟩

end Matches

def subjects : CmdLine → List Bytes
  | [] => []
  | name :: args => if text name = bytes "del" then args.map text else (args.take 1).map text

/-- The last line about the key sets an expiration. -/
def lingering (key : Bytes) (lines : List CmdLine) : Bool :=
  lines.foldl (fun b line =>
    if key ∈ subjects line then decide (line.head? = some (some (bytes "PEXPIREAT"))) else b) false

theorem lingering_append (key : Bytes) (lines : List CmdLine) (line : CmdLine) :
    lingering key (lines ++ [line]) = if key ∈ subjects line then
      decide (line.head? = some (some (bytes "PEXPIREAT"))) else lingering key lines := by
  rw [lingering, List.foldl_append]
  rfl

theorem lingering_append_of_not_mem {lines lines' : List CmdLine}
    (h : ∀ line ∈ lines', key ∉ subjects line) :
    lingering key (lines ++ lines') = lingering key lines := by
  induction lines' generalizing lines with
  | nil => rw [List.append_nil]
  | cons line lines' ih =>
      rw [List.append_cons, ih fun l hl => h l (List.mem_cons_of_mem _ hl), lingering_append,
        if_neg (h line List.mem_cons_self)]

/-- Every key is what it will be after a load of the log. -/
def Tracks (T : Int) (w v : World σ) : Prop :=
  ∀ key, Matches T (lingering key w.aof = true) (w.db.slot key) (v.db.slot key)

theorem Tracks.evict {w v : World σ} (h : Tracks T w v) (ht : env.now ≤ T) :
    Tracks T { w with db := w.db.evict env key } v := by
  intro k
  have hk := h k
  simp only [DB.slot_evict]
  split
  · rename_i he
    subst he
    exact hk.evict ht
  · exact hk

/-- A step that is about one key. -/
theorem Tracks.one {w v w' v' : World σ} {lines : List CmdLine} (h : Tracks T w v)
    (haof : w'.aof = w.aof ++ lines) (hlines : ∀ line ∈ lines, subjects line = [key])
    (hslot : ∀ k, k ≠ key → w'.db.slot k = w.db.slot k)
    (hslot' : ∀ k, k ≠ key → v'.db.slot k = v.db.slot k)
    (hkey : Matches T (lingering key w'.aof = true) (w'.db.slot key) (v'.db.slot key)) :
    Tracks T w' v' := by
  intro k
  by_cases hk : k = key
  · exact hk ▸ hkey
  · rw [hslot k hk, hslot' k hk, haof, lingering_append_of_not_mem]
    · exact h k
    · intro line hl
      simpa [hlines line hl] using hk

section

variable [LinearOrder σ] [Inhabited σ]

/-- The lines that are handed on bring a load to where the database is. -/
def Follows (env : Env σ) (T : Int) (w v w' : World σ) : Prop :=
  ∃ lines, w'.aof = w.aof ++ lines ∧ Tracks T w' (loadAof (env.atTime T) lines v)

theorem Tracks.follows {w v w' : World σ} (h : Tracks T w' v) (haof : w'.aof = w.aof) :
    Follows env T w v w' :=
  ⟨[], by simp [haof], h⟩

end

end

end Traitor.Database
