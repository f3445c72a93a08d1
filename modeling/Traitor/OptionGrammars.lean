import Traitor.ExactTimes

namespace Traitor.Database

open Lib.Effects Lib.Strconv Protocol

variable {σ : Type} {env : Env σ} {w : World σ}

/-- The options of `SET` and `GETEX`, with the time to live of `EX` and `PX` in milliseconds. -/
inductive StringOption
  | nx
  | xx
  | time (ms : Int)
  | persist
deriving DecidableEq

/-- An `EX` or `PX` without a positive number after it is malformed. -/
inductive Word
  | option (o : StringOption)
  | unknown
  | malformed
deriving DecidableEq

def positive (arg : Slice) : Option Int := (parseInt 64 (text arg)).filter (0 < ·)

def words : List Slice → List Word
  | [] => []
  | arg :: rest =>
      let name := toUpper (text arg)
      if name = bytes "NX" then .option .nx :: words rest
      else if name = bytes "XX" then .option .xx :: words rest
      else if name = bytes "PERSIST" then .option .persist :: words rest
      else if name = bytes "EX" ∨ name = bytes "PX" then
        match rest with
        | [] => [.malformed]
        | n :: rest =>
            match positive n with
            | none => [.malformed]
            | some n => .option (.time (if name = bytes "EX" then n * 1000 else n)) :: words rest
      else .unknown :: words rest

def Spells (args : List Slice) (l : List StringOption) : Prop := words args = l.map .option

def times (l : List StringOption) : List Int :=
  l.filterMap fun | .time ms => some ms | _ => none

/-- Options in any order, `NX` and `XX` not both and one time to live at most. -/
structure SetGrammar (l : List StringOption) : Prop where
  persist : .persist ∉ l
  policy : ¬ (.nx ∈ l ∧ .xx ∈ l)
  once : (times l).length ≤ 1

def GetEXGrammar (l : List StringOption) : Prop := l = [] ∨ l = [.persist] ∨ ∃ ms, l = [.time ms]

theorem ttlArg_toOption (name : String) (ttl : Int) (arg : Slice) :
    (ttlArg name ttl arg).toOption = if ttl = unlimitedTTL then positive arg else none := by
  rw [ttlArg, positive]
  by_cases httl : ttl = unlimitedTTL
  · rw [if_neg (not_not.mpr httl), if_pos httl]
    cases parseInt 64 (text arg) with
    | none => rfl
    | some n =>
        dsimp only [Option.filter]
        by_cases hn : n ≤ 0
        · rw [if_pos hn, if_neg (by simpa using hn)]
          rfl
        · rw [if_neg hn, if_pos (by simpa using hn)]
          rfl
  · rw [if_pos httl, if_neg httl]
    rfl

def setWords (policy : Policy) (ttl : Int) : List Word → Option (Policy × Int)
  | [] => some (policy, ttl)
  | .option .nx :: ws => if policy = .update then none else setWords .insert ttl ws
  | .option .xx :: ws => if policy = .insert then none else setWords .update ttl ws
  | .option (.time ms) :: ws => if ttl = unlimitedTTL then setWords policy (wrap64 ms) ws else none
  | _ :: _ => none

theorem positive_eq_some {arg : Slice} {n : Int} (h : positive arg = some n) : wrap64 n = n := by
  obtain ⟨hparse, -⟩ := Option.filter_eq_some_iff.mp h
  exact wrap64_of_lt (parseInt_range hparse).1 (parseInt_range hparse).2

section

variable {arg : Slice} {rest : List Slice}

theorem words_nx (h : toUpper (text arg) = bytes "NX") : words (arg :: rest) = .option .nx :: words rest := by
  rw [words.eq_def]
  exact if_pos h

theorem words_xx (h : toUpper (text arg) = bytes "XX") : words (arg :: rest) = .option .xx :: words rest := by
  rw [words.eq_def]
  dsimp only
  rw [if_neg (by rw [h]; decide), if_pos h]

theorem words_persist (h : toUpper (text arg) = bytes "PERSIST") :
    words (arg :: rest) = .option .persist :: words rest := by
  rw [words.eq_def]
  dsimp only
  rw [if_neg (by rw [h]; decide), if_neg (by rw [h]; decide), if_pos h]

theorem words_missing (h : toUpper (text arg) = bytes "EX" ∨ toUpper (text arg) = bytes "PX") :
    words [arg] = [.malformed] := by
  rcases h with h | h <;> simp [words, h, bytes]

theorem words_ex (h : toUpper (text arg) = bytes "EX") (n : Slice) :
    words (arg :: n :: rest) = (positive n).elim [.malformed] fun n => .option (.time (n * 1000)) :: words rest := by
  rw [words, if_neg (by rw [h]; decide), if_neg (by rw [h]; decide), if_neg (by rw [h]; decide), if_pos (.inl h)]
  cases positive n with
  | none => rfl
  | some n => simp only [if_pos h, Option.elim_some]

theorem words_px (h : toUpper (text arg) = bytes "PX") (n : Slice) :
    words (arg :: n :: rest) = (positive n).elim [.malformed] fun n => .option (.time n) :: words rest := by
  have hex : toUpper (text arg) ≠ bytes "EX" := by
    rw [h]
    decide
  rw [words, if_neg (by rw [h]; decide), if_neg (by rw [h]; decide), if_neg (by rw [h]; decide), if_pos (.inr h)]
  cases positive n with
  | none => rfl
  | some n => simp only [if_neg hex, Option.elim_some]

theorem words_unknown (hnx : toUpper (text arg) ≠ bytes "NX") (hxx : toUpper (text arg) ≠ bytes "XX")
    (hpersist : toUpper (text arg) ≠ bytes "PERSIST") (hex : toUpper (text arg) ≠ bytes "EX")
    (hpx : toUpper (text arg) ≠ bytes "PX") : words (arg :: rest) = .unknown :: words rest := by
  rw [words.eq_def]
  simp only [if_neg hnx, if_neg hxx, if_neg hpersist, if_neg (not_or.mpr ⟨hex, hpx⟩)]

end

/-- The time to live of an `EX` or `PX` that is read is positive, and the first one. -/
theorem ttlArg_error_iff {name : String} {ttl : Int} {arg : Slice} {e : Reply}
    (h : ttlArg name ttl arg = .error e) : ttl ≠ unlimitedTTL ∨ positive arg = none := by
  have hto := ttlArg_toOption name ttl arg
  rw [h] at hto
  by_cases httl : ttl = unlimitedTTL
  · rw [if_pos httl] at hto
    exact .inr hto.symm
  · exact .inl httl

theorem ttlArg_eq_ok {name : String} {ttl : Int} {arg : Slice} {n : Int}
    (h : ttlArg name ttl arg = .ok n) : ttl = unlimitedTTL ∧ positive arg = some n := by
  have hto := ttlArg_toOption name ttl arg
  rw [h] at hto
  by_cases httl : ttl = unlimitedTTL
  · rw [if_pos httl] at hto
    exact ⟨httl, hto.symm⟩
  · rw [if_neg httl] at hto
    cases hto

theorem setOptions_words (policy : Policy) (ttl : Int) (args : List Slice) :
    (setOptions policy ttl args).toOption = setWords policy ttl (words args) := by
  have hrefused (policy : Policy) (ttl : Int) (n : Slice) (ws : List Word)
      (h : ttl ≠ unlimitedTTL ∨ positive n = none) (f : Int → Int) : none =
      setWords policy ttl ((positive n).elim [.malformed] fun n => .option (.time (f n)) :: ws) := by
    cases hn : positive n with
    | none => rfl
    | some n =>
        rw [hn, or_iff_left (Option.some_ne_none n)] at h
        rw [Option.elim_some, setWords, if_neg h]
  fun_induction setOptions policy ttl args with
  | case1 => rfl
  | case2 ttl arg rest name hname =>
      rw [words_nx hname, setWords, if_pos rfl]
      rfl
  | case3 policy ttl arg rest name hname hpolicy ih => rw [words_nx hname, setWords, if_neg hpolicy, ih]
  | case4 ttl arg rest name _ hname =>
      rw [words_xx hname, setWords, if_pos rfl]
      rfl
  | case5 policy ttl arg rest name _ hname hpolicy ih => rw [words_xx hname, setWords, if_neg hpolicy, ih]
  | case6 policy ttl arg name _ _ hname =>
      rw [words_missing (.inl hname)]
      rfl
  | case7 policy ttl arg name _ _ hname rawTTL rest e he =>
      rw [words_ex hname]
      exact hrefused policy ttl rawTTL _ (ttlArg_error_iff he) _
  | case8 policy ttl arg name _ _ hname rawTTL rest n hn ih =>
      obtain ⟨rfl, hpos⟩ := ttlArg_eq_ok hn
      rw [words_ex hname, hpos, Option.elim_some, setWords, if_pos rfl, ih]
  | case9 policy ttl arg name _ _ _ hname =>
      rw [words_missing (.inr hname)]
      rfl
  | case10 policy ttl arg name _ _ _ hname rawTTL rest e he =>
      rw [words_px hname]
      exact hrefused policy ttl rawTTL _ (ttlArg_error_iff he) id
  | case11 policy ttl arg name _ _ _ hname rawTTL rest n hn ih =>
      obtain ⟨rfl, hpos⟩ := ttlArg_eq_ok hn
      rw [words_px hname, hpos, Option.elim_some, setWords, if_pos rfl, positive_eq_some hpos, ih]
  | case12 policy ttl arg rest name hnx hxx hex hpx =>
      by_cases hpersist : toUpper (text arg) = bytes "PERSIST"
      · rw [words_persist hpersist]
        rfl
      · rw [words_unknown hnx hxx hpersist hex hpx]
        rfl

@[simp] theorem times_nil : times [] = [] := rfl

@[simp] theorem times_cons (o : StringOption) (l : List StringOption) :
    times (o :: l) = (match o with | .time ms => [ms] | _ => []) ++ times l := by
  cases o <;> rfl

/-- What `SET` takes from the policy and the time to live on: only a time to live that wraps to none lets another
one follow. -/
structure SetFits (policy : Policy) (ttl : Int) (l : List StringOption) : Prop where
  persist : .persist ∉ l
  update : ¬ (.nx ∈ l ∧ policy = .update)
  insert : ¬ (.xx ∈ l ∧ (.nx ∈ l ∨ policy = .insert))
  time : times l = [] ∨ ttl = unlimitedTTL ∧ ∀ ms ∈ (times l).dropLast, (2 ^ 64 : Int) ∣ ms

def outcome (policy : Policy) (ttl : Int) (l : List StringOption) : Policy × Int :=
  (if .nx ∈ l then .insert else if .xx ∈ l then .update else policy, (times l).getLast?.elim ttl wrap64)

theorem wrap64_eq_zero_iff (i : Int) : wrap64 i = unlimitedTTL ↔ (2 ^ 64 : Int) ∣ i := by
  rw [wrap64, unlimitedTTL]
  constructor
  · intro h
    exact_mod_cast Int.dvd_of_bmod_eq_zero h
  · intro h
    exact Int.bmod_eq_zero_of_dvd (by exact_mod_cast h)

theorem fits_time_iff {policy : Policy} {ms : Int} {l : List StringOption} :
    SetFits policy (wrap64 ms) l ↔ SetFits policy unlimitedTTL (.time ms :: l) := by
  have htimes : (times l = [] ∨ wrap64 ms = unlimitedTTL ∧ ∀ m ∈ (times l).dropLast, (2 ^ 64 : Int) ∣ m) ↔
      (times (.time ms :: l) = [] ∨ unlimitedTTL = unlimitedTTL ∧
        ∀ m ∈ (times (.time ms :: l)).dropLast, (2 ^ 64 : Int) ∣ m) := by
    rw [times_cons, wrap64_eq_zero_iff]
    cases times l with
    | nil => simp
    | cons t ts => simp
  constructor
  · rintro ⟨hpersist, hupdate, hinsert, h⟩
    exact ⟨by simpa using hpersist, by simpa using hupdate, by simpa using hinsert, htimes.mp h⟩
  · rintro ⟨hpersist, hupdate, hinsert, h⟩
    exact ⟨by simpa using hpersist, by simpa using hupdate, by simpa using hinsert, htimes.mpr h⟩

theorem fits_nx_iff {policy : Policy} {ttl : Int} {l : List StringOption} (hpolicy : policy ≠ .update) :
    SetFits .insert ttl l ↔ SetFits policy ttl (.nx :: l) := by
  constructor
  · rintro ⟨hpersist, -, hinsert, htimes⟩
    exact ⟨by simpa using hpersist, fun h => hpolicy h.2, fun h => hinsert ⟨by simpa using h.1, .inr rfl⟩,
      by simpa using htimes⟩
  · rintro ⟨hpersist, -, hinsert, htimes⟩
    exact ⟨by simpa using hpersist, by simp, fun h => hinsert ⟨.tail _ h.1, .inl (.head _)⟩, by simpa using htimes⟩

theorem fits_xx_iff {policy : Policy} {ttl : Int} {l : List StringOption} (hpolicy : policy ≠ .insert) :
    SetFits .update ttl l ↔ SetFits policy ttl (.xx :: l) := by
  constructor
  · rintro ⟨hpersist, hupdate, -, htimes⟩
    have hnx : .nx ∉ l := fun h => hupdate ⟨h, rfl⟩
    exact ⟨by simpa using hpersist, by simpa using fun h => absurd h hnx, by simpa [hpolicy] using hnx,
      by simpa using htimes⟩
  · rintro ⟨hpersist, -, hinsert, htimes⟩
    have hnx : .nx ∉ l := fun h => hinsert ⟨.head _, .inl (.tail _ h)⟩
    exact ⟨by simpa using hpersist, fun h => hnx h.1, by simpa using fun _ => hnx, by simpa using htimes⟩

theorem outcome_nx {policy : Policy} {ttl : Int} {l : List StringOption} (h : SetFits policy ttl (.nx :: l)) :
    outcome policy ttl (.nx :: l) = outcome .insert ttl l := by
  have hxx : .xx ∉ l := fun hxx => h.insert ⟨.tail _ hxx, .inl (.head _)⟩
  simp [outcome, hxx]

theorem outcome_xx {policy : Policy} {ttl : Int} {l : List StringOption} (h : SetFits policy ttl (.xx :: l)) :
    outcome policy ttl (.xx :: l) = outcome .update ttl l := by
  have hnx : .nx ∉ l := fun hnx => h.insert ⟨.head _, .inl (.tail _ hnx)⟩
  simp [outcome, hnx]

theorem outcome_time (policy : Policy) (ttl ms : Int) (l : List StringOption) :
    outcome policy ttl (.time ms :: l) = outcome policy (wrap64 ms) l := by
  have hlast : (times (.time ms :: l)).getLast?.elim ttl wrap64 = (times l).getLast?.elim (wrap64 ms) wrap64 := by
    rw [times_cons]
    cases times l with
    | nil => rfl
    | cons t ts => simp [List.getLast?_cons]
  rw [outcome, outcome, hlast]
  simp

theorem setWords_options {policy : Policy} {ttl : Int} {l : List StringOption} {p : Policy × Int} :
    setWords policy ttl (l.map .option) = some p ↔ SetFits policy ttl l ∧ p = outcome policy ttl l := by
  induction l generalizing policy ttl with
  | nil =>
      have hfits : SetFits policy ttl [] := ⟨by simp, by simp, by simp, .inl rfl⟩
      rw [List.map_nil, setWords, and_iff_right hfits, Option.some.injEq, eq_comm]
      rfl
  | cons o l ih =>
      cases o with
      | nx =>
          rw [List.map_cons, setWords]
          by_cases hpolicy : policy = .update
          · rw [if_pos hpolicy]
            refine iff_of_false (by simp) fun h => h.1.update ⟨by simp, hpolicy⟩
          · rw [if_neg hpolicy, ih, fits_nx_iff hpolicy]
            apply and_congr_right
            intro h
            rw [outcome_nx h]
      | xx =>
          rw [List.map_cons, setWords]
          by_cases hpolicy : policy = .insert
          · rw [if_pos hpolicy]
            refine iff_of_false (by simp) fun h => h.1.insert ⟨by simp, .inr hpolicy⟩
          · rw [if_neg hpolicy, ih, fits_xx_iff hpolicy]
            apply and_congr_right
            intro h
            rw [outcome_xx h]
      | time ms =>
          rw [List.map_cons, setWords]
          by_cases httl : ttl = unlimitedTTL
          · rw [if_pos httl, ih, fits_time_iff, outcome_time, httl]
          · rw [if_neg httl]
            apply iff_of_false (by simp)
            intro h
            rcases h.1.time with hnil | ⟨hzero, -⟩
            · simp at hnil
            · exact httl hzero
      | persist => exact iff_of_false (by simp [setWords]) fun h => h.1.persist (by simp)

theorem setWords_eq_some {policy : Policy} {ttl : Int} {ws : List Word} {p : Policy × Int}
    (h : setWords policy ttl ws = some p) : ∃ l : List StringOption, ws = l.map .option := by
  fun_induction setWords policy ttl ws with
  | case1 => exact ⟨[], rfl⟩
  | case2 | case4 | case7 | case8 => cases h
  | case3 policy ttl ws _ ih =>
      obtain ⟨l, rfl⟩ := ih h
      exact ⟨.nx :: l, rfl⟩
  | case5 policy ttl ws _ ih =>
      obtain ⟨l, rfl⟩ := ih h
      exact ⟨.xx :: l, rfl⟩
  | case6 policy ms ws ih =>
      obtain ⟨l, rfl⟩ := ih h
      exact ⟨.time ms :: l, rfl⟩

/-- What the options of `SET` are accepted with. -/
theorem setOptions_eq_ok_iff {policy : Policy} {ttl : Int} {args : List Slice} {p : Policy × Int} :
    setOptions policy ttl args = .ok p ↔ ∃ l, Spells args l ∧ SetFits policy ttl l ∧ p = outcome policy ttl l := by
  have hto : setOptions policy ttl args = .ok p ↔ setWords policy ttl (words args) = some p := by
    rw [← setOptions_words]
    cases setOptions policy ttl args <;> simp [Except.toOption]
  rw [hto]
  constructor
  · intro h
    obtain ⟨l, hl⟩ := setWords_eq_some h
    rw [hl] at h
    exact ⟨l, hl, setWords_options.mp h⟩
  · rintro ⟨l, hl, h⟩
    rw [hl]
    exact setWords_options.mpr h

theorem Spells.unique {args : List Slice} {l l' : List StringOption} (h : Spells args l) (h' : Spells args l') :
    l = l' := List.map_injective_iff.mpr (fun _ _ => Word.option.inj) (h.symm.trans h')

/-- A list in the grammar is accepted, and has the same effect in any order; every other list is an error and
changes nothing. -/
structure MeetsGrammar (grammar : List StringOption → Prop) (run : List Slice → Exec σ Reply) (args : List Slice)
    (w : World σ) : Prop where
  accepts : ∀ l, Spells args l → grammar l → ¬ Failed (value (run args) w)
  alike : ∀ l args' l', Spells args l → grammar l → Spells args' l' → l'.Perm l →
    (final (run args') w).db = (final (run args) w).db
  refuses : (∀ l, Spells args l → ¬ grammar l) → Failed (value (run args) w) ∧ (final (run args) w).db = w.db

/-- Of several times to live all but the last one wrap to none. -/
def Reopens (args : List Slice) : Prop :=
  ∃ l, Spells args l ∧ .persist ∉ l ∧ ¬ (.nx ∈ l ∧ .xx ∈ l) ∧ 2 ≤ (times l).length ∧
    ∀ ms ∈ (times l).dropLast, (2 ^ 64 : Int) ∣ ms

theorem SetGrammar.fits {l : List StringOption} (h : SetGrammar l) : SetFits .upsert unlimitedTTL l := by
  refine ⟨h.persist, by simp, fun hx => h.policy ⟨hx.2.resolve_right (by simp), hx.1⟩, .inr ⟨rfl, ?_⟩⟩
  have hnil : (times l).dropLast = [] := by
    apply List.eq_nil_of_length_eq_zero
    have honce := h.once
    rw [List.length_dropLast]
    omega
  simp [hnil]

theorem SetFits.grammar_or {args : List Slice} {l : List StringOption} (hspells : Spells args l)
    (h : SetFits .upsert unlimitedTTL l) : SetGrammar l ∨ Reopens args := by
  have hpolicy : ¬ (.nx ∈ l ∧ .xx ∈ l) := fun hx => h.insert ⟨hx.2, .inl hx.1⟩
  by_cases honce : (times l).length ≤ 1
  · exact .inl ⟨h.persist, hpolicy, honce⟩
  · refine .inr ⟨l, hspells, h.persist, hpolicy, by omega, ?_⟩
    refine (h.time.resolve_left fun hnil => honce ?_).2
    simp [hnil]

theorem Reopens.accepts {args : List Slice} (h : Reopens args) :
    ∃ l, Spells args l ∧ SetFits .upsert unlimitedTTL l ∧ ¬ SetGrammar l := by
  obtain ⟨l, hspells, hpersist, hpolicy, htwo, hdvd⟩ := h
  refine ⟨l, hspells, ⟨hpersist, by simp, fun hx => hpolicy ⟨hx.2.resolve_right (by simp), hx.1⟩, .inr ⟨rfl, hdvd⟩⟩,
    fun hgrammar => ?_⟩
  have honce := hgrammar.once
  omega

theorem times_perm {l l' : List StringOption} (h : l'.Perm l) : (times l').Perm (times l) := h.filterMap _

theorem SetGrammar.perm {l l' : List StringOption} (h : SetGrammar l) (hperm : l'.Perm l) : SetGrammar l' := by
  refine ⟨fun hp => h.persist (hperm.mem_iff.mp hp), ?_, ?_⟩
  · rw [hperm.mem_iff, hperm.mem_iff]
    exact h.policy
  · rw [(times_perm hperm).length_eq]
    exact h.once

theorem outcome_perm {l l' : List StringOption} (h : SetGrammar l) (hperm : l'.Perm l) :
    outcome .upsert unlimitedTTL l' = outcome .upsert unlimitedTTL l := by
  have htimes : times l' = times l := by
    have hperm' := times_perm hperm
    have honce := h.once
    match hl : times l with
    | [] => exact List.perm_nil.mp (hl ▸ hperm')
    | [ms] => exact List.perm_singleton.mp (hl ▸ hperm')
    | _ :: _ :: _ =>
        rw [hl] at honce
        simp at honce
  rw [outcome, outcome, htimes]
  simp only [hperm.mem_iff]

theorem not_failed_set {key value : Slice} {args : List Slice} {p : Policy × Int}
    (h : setOptions .upsert unlimitedTTL args = .ok p) :
    ¬ Failed (Lib.Effects.value (execSet env (key :: value :: args)) w) := by
  rw [execSet_value h]
  cases p.1.allows (w.db.slot (text key)).data.isSome <;> exact Bool.false_ne_true

theorem set_meets_iff (key value : Slice) (args : List Slice) (w : World σ) :
    MeetsGrammar SetGrammar (fun args => execSet env (key :: value :: args)) args w ↔ ¬ Reopens args := by
  constructor
  · intro h hreopens
    obtain ⟨l, hspells, hfits, hgrammar⟩ := hreopens.accepts
    have hfailed := (h.refuses fun l' hl' => hspells.unique hl' ▸ hgrammar).1
    exact not_failed_set (setOptions_eq_ok_iff.mpr ⟨l, hspells, hfits, rfl⟩) hfailed
  · intro hreopens
    refine ⟨fun l hl hgrammar => ?_, fun l args' l' hl hgrammar hl' hperm => ?_, fun hnone => ?_⟩
    · exact not_failed_set (setOptions_eq_ok_iff.mpr ⟨l, hl, hgrammar.fits, rfl⟩)
    · have hparse := setOptions_eq_ok_iff.mpr ⟨l, hl, hgrammar.fits, rfl⟩
      have hparse' := setOptions_eq_ok_iff.mpr ⟨l', hl', (hgrammar.perm hperm).fits, rfl⟩
      rw [outcome_perm hgrammar hperm] at hparse'
      rw [execSet_final, execSet_final, hparse, hparse']
      dsimp only
      split
      · split <;> rfl
      · rfl
    · cases hparse : setOptions .upsert unlimitedTTL args with
      | ok p =>
          obtain ⟨l, hl, hfits, -⟩ := setOptions_eq_ok_iff.mp hparse
          exact absurd (hfits.grammar_or hl) (not_or.mpr ⟨hnone l hl, hreopens⟩)
      | error e =>
          have hvalue : Lib.Effects.value (execSet env (key :: value :: args)) w = some e := by
            rw [execSet, hparse]
            rfl
          rw [hvalue, execSet_final, hparse]
          exact ⟨setOptions_error hparse, rfl⟩

/-- The options of `GETEX` word by word: whether the key is persisted on the way, and the time to live. -/
def getExWords (ttl : Int) : List Word → Bool × Option Int
  | [] => (false, some ttl)
  | .malformed :: _ => (false, none)
  | .option (.time ms) :: ws => if ttl = unlimitedTTL then getExWords (wrap64 ms) ws else (false, none)
  | .option .persist :: ws => if ttl = unlimitedTTL then (true, (getExWords ttl ws).2) else (false, none)
  | _ :: ws => getExWords ttl ws

theorem getExParse_words (ttl : Int) (args : List Slice) :
    ((getExParse ttl args).1, (getExParse ttl args).2.toOption) = getExWords ttl (words args) := by
  have hrefused (ttl : Int) (n : Slice) (ws : List Word) (h : ttl ≠ unlimitedTTL ∨ positive n = none)
      (f : Int → Int) : (false, none) =
      getExWords ttl ((positive n).elim [.malformed] fun n => .option (.time (f n)) :: ws) := by
    cases hn : positive n with
    | none => rfl
    | some n =>
        rw [hn, or_iff_left (Option.some_ne_none n)] at h
        rw [Option.elim_some, getExWords, if_neg h]
  fun_induction getExParse ttl args with
  | case1 => rfl
  | case2 ttl arg name hname =>
      rw [words_missing (.inl hname)]
      rfl
  | case3 ttl arg name hname rawTTL rest e he =>
      rw [words_ex hname]
      exact hrefused ttl rawTTL _ (ttlArg_error_iff he) _
  | case4 ttl arg name hname rawTTL rest n hn ih =>
      obtain ⟨rfl, hpos⟩ := ttlArg_eq_ok hn
      rw [words_ex hname, hpos, Option.elim_some, getExWords, if_pos rfl, ih]
  | case5 ttl arg name _ hname =>
      rw [words_missing (.inr hname)]
      rfl
  | case6 ttl arg name _ hname rawTTL rest e he =>
      rw [words_px hname]
      exact hrefused ttl rawTTL _ (ttlArg_error_iff he) id
  | case7 ttl arg name _ hname rawTTL rest n hn ih =>
      obtain ⟨rfl, hpos⟩ := ttlArg_eq_ok hn
      rw [words_px hname, hpos, Option.elim_some, getExWords, if_pos rfl, positive_eq_some hpos, ih]
  | case8 ttl arg rest name _ _ hname httl =>
      rw [words_persist hname, getExWords, if_neg httl]
      rfl
  | case9 ttl arg rest name _ _ hname httl ih =>
      rw [words_persist hname, getExWords, if_pos (not_not.mp httl), ← ih]
  | case10 ttl arg rest name hex hpx hpersist ih =>
      rw [ih]
      by_cases hnx : toUpper (text arg) = bytes "NX"
      · rw [words_nx hnx]
        rfl
      · by_cases hxx : toUpper (text arg) = bytes "XX"
        · rw [words_xx hxx]
          rfl
        · rw [words_unknown hnx hxx hpersist hex hpx]
          rfl

def wordTimes (ws : List Word) : List Int :=
  ws.filterMap fun | .option (.time ms) => some ms | _ => none

/-- `PERSIST`, `EX` and `PX`, which need the time to live to be still open. -/
def Word.Closes (x : Word) : Prop := x = .option .persist ∨ ∃ ms, x = .option (.time ms)

/-- An option is malformed, or comes after a time to live that does not wrap to none. -/
def Refused (ws : List Word) : Prop :=
  ∃ before x after, ws = before ++ x :: after ∧
    (x = .malformed ∨ x.Closes ∧ ∃ m ∈ wordTimes before, ¬ (2 ^ 64 : Int) ∣ m)

def PersistsFirst (ws : List Word) : Prop :=
  ∃ before x after, ws = before ++ x :: after ∧
    (x = .option .persist ∧ .malformed ∉ before ∧ ∀ m ∈ wordTimes before, (2 ^ 64 : Int) ∣ m)

theorem exists_split_cons {α : Type} {P : List α → α → Prop} {y : α} {ys : List α} :
    (∃ before x after, y :: ys = before ++ x :: after ∧ P before x) ↔
      P [] y ∨ ∃ before x after, ys = before ++ x :: after ∧ P (y :: before) x := by
  constructor
  · rintro ⟨before, x, after, hsplit, h⟩
    cases before with
    | nil =>
        cases hsplit
        exact .inl h
    | cons z before =>
        cases hsplit
        exact .inr ⟨before, x, after, rfl, h⟩
  · rintro (h | ⟨before, x, after, rfl, h⟩)
    · exact ⟨[], y, ys, rfl, h⟩
    · exact ⟨y :: before, x, after, rfl, h⟩

theorem getExWords_none_iff {ttl : Int} {ws : List Word} : (getExWords ttl ws).2 = none ↔
    ∃ before x after, ws = before ++ x :: after ∧ (x = .malformed ∨
      x.Closes ∧ (ttl ≠ unlimitedTTL ∨ ∃ m ∈ wordTimes before, ¬ (2 ^ 64 : Int) ∣ m)) := by
  induction ws generalizing ttl with
  | nil => exact iff_of_false (by simp [getExWords]) (by simp)
  | cons y ws ih =>
      rw [exists_split_cons]
      rcases y with (_ | _ | ms | _) | _ | _
      case option.time =>
          rw [getExWords]
          by_cases httl : ttl = unlimitedTTL
          · rw [if_pos httl, ih, or_iff_right (by simp [httl, wordTimes])]
            simp [httl, wordTimes, wrap64_eq_zero_iff]
          · rw [if_neg httl]
            exact iff_of_true rfl (.inl (.inr ⟨.inr ⟨ms, rfl⟩, .inl httl⟩))
      case option.persist =>
          rw [getExWords]
          by_cases httl : ttl = unlimitedTTL
          · rw [if_pos httl, ih, or_iff_right (by simp [httl, wordTimes])]
            rfl
          · rw [if_neg httl]
            exact iff_of_true rfl (.inl (.inr ⟨.inl rfl, .inl httl⟩))
      case malformed => exact iff_of_true rfl (.inl (.inl rfl))
      all_goals
        rw [or_iff_right (by simp [Word.Closes])]
        exact ih

theorem getExWords_persists_iff {ttl : Int} {ws : List Word} : (getExWords ttl ws).1 = true ↔
    ttl = unlimitedTTL ∧ PersistsFirst ws := by
  induction ws generalizing ttl with
  | nil => exact iff_of_false (by simp [getExWords]) (by simp [PersistsFirst])
  | cons y ws ih =>
      rw [PersistsFirst, exists_split_cons]
      rcases y with (_ | _ | ms | _) | _ | _
      case option.time =>
          rw [getExWords, or_iff_right (by simp)]
          by_cases httl : ttl = unlimitedTTL
          · rw [if_pos httl, ih, PersistsFirst, wrap64_eq_zero_iff, and_iff_right httl]
            constructor
            · rintro ⟨hms, before, x, after, hsplit, hx, hmalformed, hdvd⟩
              exact ⟨before, x, after, hsplit, hx, by simpa using hmalformed,
                List.forall_mem_cons.mpr ⟨hms, hdvd⟩⟩
            · rintro ⟨before, x, after, hsplit, hx, hmalformed, hdvd⟩
              obtain ⟨hms, hdvd⟩ := List.forall_mem_cons.mp hdvd
              exact ⟨hms, before, x, after, hsplit, hx, by simpa using hmalformed, hdvd⟩
          · rw [if_neg httl]
            exact iff_of_false Bool.false_ne_true fun h => httl h.1
      case option.persist =>
          rw [getExWords]
          by_cases httl : ttl = unlimitedTTL
          · rw [if_pos httl]
            exact iff_of_true rfl ⟨httl, .inl ⟨rfl, by simp, by simp [wordTimes]⟩⟩
          · rw [if_neg httl]
            exact iff_of_false Bool.false_ne_true fun h => httl h.1
      case malformed => exact iff_of_false Bool.false_ne_true (by simp)
      all_goals
        rw [or_iff_right (by simp)]
        refine ih.trans (and_congr_right fun _ => ?_)
        rw [PersistsFirst]
        simp [wordTimes]

theorem refused_iff {args : List Slice} : Refused (words args) ↔
    ∃ e, (getExParse unlimitedTTL args).2 = .error e := by
  have hwords : (getExWords unlimitedTTL (words args)).2 = none ↔ Refused (words args) := by
    rw [getExWords_none_iff]
    simp only [Refused, ne_eq, not_true_eq_false, false_or]
  rw [← hwords, ← getExParse_words]
  cases (getExParse unlimitedTTL args).2 <;> simp [Except.toOption]

theorem persistsFirst_iff {args : List Slice} :
    PersistsFirst (words args) ↔ (getExParse unlimitedTTL args).1 = true := by
  have hfirst : (getExParse unlimitedTTL args).1 = (getExWords unlimitedTTL (words args)).1 :=
    congrArg Prod.fst (getExParse_words unlimitedTTL args)
  rw [hfirst, getExWords_persists_iff, and_iff_right rfl]

/-- The options of the grammar are not refused. -/
theorem GetEXGrammar.not_refused {args : List Slice} {l : List StringOption} (hl : Spells args l)
    (h : GetEXGrammar l) : ¬ Refused (words args) := by
  rintro ⟨before, x, after, hsplit, hx⟩
  rw [hl] at hsplit
  have hnil : before = [] ∧ ∃ o, x = .option o := by
    rcases h with rfl | rfl | ⟨ms, rfl⟩
    · simp at hsplit
    all_goals
      cases before with
      | nil =>
          cases hsplit
          exact ⟨rfl, _, rfl⟩
      | cons y before => simp at hsplit
  obtain ⟨rfl, o, rfl⟩ := hnil
  simp [wordTimes] at hx

theorem GetEXGrammar.eq_of_perm {l l' : List StringOption} (h : GetEXGrammar l) (hperm : l'.Perm l) : l' = l := by
  rcases h with rfl | rfl | ⟨ms, rfl⟩
  · exact List.perm_nil.mp hperm
  · exact List.perm_singleton.mp hperm
  · exact List.perm_singleton.mp hperm

theorem words_eq_nil_iff {args : List Slice} : words args = [] ↔ args = [] := by
  constructor
  · intro h
    cases args with
    | nil => rfl
    | cons arg rest =>
        rw [words.eq_def] at h
        grind
  · rintro rfl
    rfl

section

variable {key v : Slice} {args : List Slice}

theorem execGetEX_value (h : w.db.live env (text key) = some (.str v)) :
    Lib.Effects.value (execGetEX env (key :: args)) w = some (v.elim .nullBulk fun s =>
      match (getExParse unlimitedTTL args).2 with
      | .error e => e
      | .ok _ => .bulk (some s)) := by
  refine (wp_iff _ (fun r _ => r = some (v.elim .nullBulk fun s =>
      match (getExParse unlimitedTTL args).2 with
      | .error e => e
      | .ok _ => .bulk (some s))) w).mp ?_
  simp only [execGetEX, wp_bind, wp_getAsString, Slot.string, ← DB.live_slot, h, Entity.asString]
  cases v with
  | none => rfl
  | some s =>
      simp only [wp_bind, wp_getExOptions]
      cases (getExParse unlimitedTTL args).2 with
      | error e => rfl
      | ok ttl =>
          dsimp only
          split
          · rfl
          · split <;> rfl

theorem getEX_failed_iff (h : w.db.live env (text key) = some (.str v)) :
    Failed (Lib.Effects.value (execGetEX env (key :: args)) w) ↔ v ≠ none ∧ Refused (words args) := by
  rw [execGetEX_value h, refused_iff]
  cases v with
  | none => exact iff_of_false Bool.false_ne_true fun h => h.1 rfl
  | some s =>
      rw [and_iff_right (Option.some_ne_none s), Option.elim_some]
      cases hparse : (getExParse unlimitedTTL args).2 with
      | error e => exact iff_of_true (getExParse_error hparse) ⟨e, rfl⟩
      | ok ttl => exact iff_of_false (by simp [Failed]) (by simp)

/-- A refused list leaves the key as it is but for a `PERSIST` on the way. -/
theorem getEX_refused_final (h : w.db.live env (text key) = some (.str v)) (hv : v ≠ none)
    (hrefused : Refused (words args)) : (final (execGetEX env (key :: args)) w).db = w.db ↔
      w.db.ttlMap.lookup (text key) = none ∨ ¬ PersistsFirst (words args) := by
  obtain ⟨e, he⟩ := refused_iff.mp hrefused
  obtain ⟨s, rfl⟩ := Option.ne_none_iff_exists'.mp hv
  rw [execGetEX_final, DB.evict_of_live h, Slot.string, ← DB.live_slot, h, persistsFirst_iff]
  dsimp only [Entity.asString]
  rw [he]
  cases (getExParse unlimitedTTL args).1 with
  | false => exact iff_of_true rfl (.inr Bool.false_ne_true)
  | true =>
      rw [or_iff_left (not_not.mpr rfl)]
      dsimp only [if_true]
      constructor
      · intro hsame
        have httl := congrArg (fun db => db.ttlMap.lookup (text key)) hsame
        rw [← httl]
        exact Finmap.lookup_erase _ _
      · intro hnone
        rw [DB.persist, Lib.FiniteMaps.erase_absent hnone]
        rfl

/-- The words of the options are all that the database sees of them. -/
theorem getEX_final_words (key : Slice) {args args' : List Slice} (h : words args' = words args) (w : World σ) :
    (final (execGetEX env (key :: args')) w).db = (final (execGetEX env (key :: args)) w).db := by
  have hparse := (getExParse_words unlimitedTTL args').trans (h ▸ (getExParse_words unlimitedTTL args).symm)
  obtain ⟨hpersists, hresult⟩ := Prod.mk.inj hparse
  have hnil : args' = [] ↔ args = [] := by rw [← words_eq_nil_iff, h, words_eq_nil_iff]
  rw [execGetEX_final, execGetEX_final, hpersists]
  cases (w.db.slot (text key)).string env.now with
  | error e => rfl
  | ok o =>
      cases o with
      | none => rfl
      | some s =>
          cases hr : (getExParse unlimitedTTL args).2 with
          | error e =>
              cases hr' : (getExParse unlimitedTTL args').2 with
              | error e' => rfl
              | ok ttl => rw [hr, hr'] at hresult; cases hresult
          | ok ttl =>
              cases hr' : (getExParse unlimitedTTL args').2 with
              | error e' => rw [hr, hr'] at hresult; cases hresult
              | ok ttl' =>
                  rw [hr, hr'] at hresult
                  cases hresult
                  dsimp only
                  simp only [hnil]

theorem getEX_meets_iff (h : w.db.live env (text key) = some (.str v)) (args : List Slice) :
    MeetsGrammar GetEXGrammar (fun args => execGetEX env (key :: args)) args w ↔
      (∃ l, Spells args l ∧ GetEXGrammar l) ∨
      v ≠ none ∧ Refused (words args) ∧
        (w.db.ttlMap.lookup (text key) = none ∨ ¬ PersistsFirst (words args)) := by
  by_cases hgrammar : ∃ l, Spells args l ∧ GetEXGrammar l
  · refine iff_of_true ?_ (.inl hgrammar)
    obtain ⟨l, hl, hgrammar⟩ := hgrammar
    refine ⟨fun l' hl' hgrammar' => ?_, fun l' args'' l'' hl' hgrammar' hl'' hperm => ?_,
      fun hnone => absurd hgrammar (hnone l hl)⟩
    · rw [getEX_failed_iff h]
      exact fun hfailed => hgrammar'.not_refused hl' hfailed.2
    · have hsame : words args'' = words args := by
        rw [hl', hl'', hgrammar'.eq_of_perm hperm]
      exact getEX_final_words key hsame w
  · rw [or_iff_right hgrammar]
    have hnone : ∀ l, Spells args l → ¬ GetEXGrammar l := fun l hl hl' => hgrammar ⟨l, hl, hl'⟩
    constructor
    · intro hmeets
      obtain ⟨hfailed, hkept⟩ := hmeets.refuses hnone
      obtain ⟨hv, hrefused⟩ := (getEX_failed_iff h).mp hfailed
      exact ⟨hv, hrefused, (getEX_refused_final h hv hrefused).mp hkept⟩
    · rintro ⟨hv, hrefused, hkept⟩
      refine ⟨fun l hl hl' => absurd hl' (hnone l hl), fun l _ _ hl hl' => absurd hl' (hnone l hl), fun _ => ?_⟩
      exact ⟨(getEX_failed_iff h).mpr ⟨hv, hrefused⟩, (getEX_refused_final h hv hrefused).mpr hkept⟩

end

/-- `SET` keeps to its grammar unless a time to live that wraps to none lets another one follow. `GETEX` keeps to
its own on a list of it, and on one that it refuses without a `PERSIST` on the way. -/
theorem option_grammars_iff (env : Env σ) (w : World σ) (key value : Slice) (args : List Slice) :
    (MeetsGrammar SetGrammar (fun args => execSet env (key :: value :: args)) args w ↔ ¬ Reopens args) ∧
    ∀ v, w.db.live env (text key) = some (.str v) →
      (MeetsGrammar GetEXGrammar (fun args => execGetEX env (key :: args)) args w ↔
        (∃ l, Spells args l ∧ GetEXGrammar l) ∨
        v ≠ none ∧ Refused (words args) ∧
          (w.db.ttlMap.lookup (text key) = none ∨ ¬ PersistsFirst (words args))) :=
  ⟨set_meets_iff key value args w, fun _ h => getEX_meets_iff h args⟩

theorem option_grammars_iff_persist : MeetsGrammar GetEXGrammar
    (fun args => execGetEX (Env.plain 0) (some (bytes "a") :: args)) [some (bytes "persist")]
    { db := World.empty.db.put (bytes "a") (.str (some (bytes "v"))), aof := [] } :=
  ((option_grammars_iff (Env.plain 0) _ (some (bytes "a")) none [some (bytes "persist")]).2
    (some (bytes "v")) rfl).mpr (.inl ⟨[.persist], show words _ = _ by decide, .inr (.inl rfl)⟩)

/-- An option that is not known is skipped. -/
theorem option_grammars_fails : ¬ MeetsGrammar GetEXGrammar
    (fun args => execGetEX (Env.plain 0) (some (bytes "a") :: args)) [some (bytes "FOO")]
    { db := World.empty.db.put (bytes "a") (.str (some (bytes "v"))), aof := [] } := by
  intro h
  have hnone : ∀ l, ¬ Spells [some (bytes "FOO")] l := by
    intro l hl
    have hwords : words [some (bytes "FOO")] = [.unknown] := by decide
    rw [Spells, hwords] at hl
    cases l <;> simp at hl
  have hfailed := (h.refuses fun l hl => absurd hl (hnone l)).1
  exact absurd hfailed Bool.false_ne_true

end Traitor.Database
