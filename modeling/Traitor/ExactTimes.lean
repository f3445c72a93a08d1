import Mathlib.Algebra.Order.Group.Unbundled.Abs
import Mathlib.Algebra.Order.Ring.Int
import Mathlib.Algebra.Order.Group.Abs
import Traitor.LazyExpiry
import Traitor.LostExpirations

namespace Traitor.Database

open Lib.Effects Lib.Strconv Protocol

variable {σ : Type} {env : Env σ} {w t : World σ}

def InRange (i : Int) : Prop := -2 ^ 63 ≤ i ∧ i < 2 ^ 63

/-- What an argument asks for, in nanoseconds: a time from now on or a point in time. -/
inductive Asked
  | fromNow (duration : Int)
  | at_ (instant : Int)

instance (i : Int) : Decidable (InRange i) := inferInstanceAs (Decidable (_ ∧ _))

namespace Asked

def instant (now : Int) : Asked → Int
  | fromNow duration => now + duration
  | at_ instant => instant

def Fits (now : Int) : Asked → Prop
  | fromNow duration => InRange duration ∧ InRange (now + duration)
  | at_ instant => InRange instant

end Asked

def askedTTLs : List Slice → List Int
  | [] => []
  | arg :: rest =>
      if toUpper (text arg) = bytes "EX" then
        match rest with
        | [] => []
        | n :: rest => ((parseInt 64 (text n)).map (· * 1000)).toList ++ askedTTLs rest
      else if toUpper (text arg) = bytes "PX" then
        match rest with
        | [] => []
        | n :: rest => (parseInt 64 (text n)).toList ++ askedTTLs rest
      else askedTTLs rest

def askedTime (unit : Int) (ask : Int → Asked) (rawTime : Slice) : List Asked :=
  ((parseInt 64 (text rawTime)).map fun n => ask (n * unit)).toList

def asked : CommandName → List Slice → List Asked
  | .expire, rawTime :: _ => askedTime second .fromNow rawTime
  | .pExpire, rawTime :: _ => askedTime millisecond .fromNow rawTime
  | .expireAt, rawTime :: _ => askedTime second .at_ rawTime
  | .pExpireAt, rawTime :: _ => askedTime millisecond .at_ rawTime
  | .setEX, rawTTL :: _ => askedTime second .fromNow rawTTL
  | .pSetEX, rawTTL :: _ => askedTime millisecond .fromNow rawTTL
  | .set, _ :: options => (askedTTLs options).map fun ms => .fromNow (ms * millisecond)
  | .getEX, options => (askedTTLs options).map fun ms => .fromNow (ms * millisecond)
  | _, _ => []

/-- The line sets an instant that is less than a millisecond off. -/
def Denotes (key : Bytes) (instant : Int) (line : CmdLine) : Prop :=
  ∃ arg ms, line = cmdLine "PEXPIREAT" [key, arg] ∧ parseInt 64 arg = some ms ∧
    |ms * millisecond - instant| < millisecond

/-- The expiration is the one that is asked for, ahead if the time to live is positive, and handed on as it is. -/
structure Meets (now : Int) (w t : World σ) (key : Bytes) (a : Asked) : Prop where
  stored : t.db.ttlMap.lookup key = some (a.instant now)
  ahead : ∀ duration, a = .fromNow duration → 0 < duration →
    ∃ instant, t.db.ttlMap.lookup key = some instant ∧ now < instant
  handed : ∃ lines line, t.aof = w.aof ++ lines ++ [line] ∧ Denotes key (a.instant now) line

def Accepts (reply : Reply) : Prop :=
  isErrorReply reply = false ∧ reply ≠ .int 0 ∧ reply ≠ .nullBulk

theorem wrap64_eq_iff (i : Int) : wrap64 i = i ↔ InRange i := by
  refine ⟨fun h => ?_, fun h => wrap64_of_lt h.1 h.2⟩
  have hrange := wrap64_range i
  rwa [h] at hrange

theorem wrap64_eq_or (i : Int) : wrap64 i = i ∨ 2 ^ 64 ≤ |wrap64 i - i| := by
  have hmod : wrap64 i % 2 ^ 64 = i % 2 ^ 64 := Int.bmod_emod
  rcases lt_trichotomy (wrap64 i) i with hlt | heq | hgt
  · right
    rw [abs_of_neg (by omega)]
    omega
  · exact .inl heq
  · right
    rw [abs_of_pos (by omega)]
    omega

theorem tdiv_millisecond_near (i : Int) : |i.tdiv millisecond * millisecond - i| < millisecond := by
  have hmilli : millisecond = 1000000 := rfl
  have hdiv := Int.mul_tdiv_add_tmod i millisecond
  have hlt : |i.tmod millisecond| < millisecond := by
    rw [abs_lt, hmilli]
    have hlo := Int.lt_tmod_of_pos i (show (0 : Int) < 1000000 by decide)
    have hhi := Int.tmod_lt_of_pos i (show (0 : Int) < 1000000 by decide)
    omega
  rw [show i.tdiv millisecond * millisecond - i = -(i.tmod millisecond) by rw [Int.mul_comm] at hdiv; omega,
    abs_neg]
  exact hlt

/-- The line is off by whole wraps for an instant that `UnixNano` cannot hold. -/
theorem makeExpireCmd_denotes_iff (key : Bytes) (instant : Int) :
    Denotes key instant (makeExpireCmd key instant) ↔ InRange instant := by
  have hnear := tdiv_millisecond_near (unixNano instant)
  constructor
  · rintro ⟨arg, ms, hline, hparse, hoff⟩
    have harg : formatInt ((unixNano instant).tdiv millisecond) = arg := by
      simpa [makeExpireCmd, cmdLine] using hline
    rw [← harg, parseInt_unixNano] at hparse
    rw [← Option.some.inj hparse] at hoff
    rw [← wrap64_eq_iff]
    apply (wrap64_eq_or instant).resolve_right
    intro hfar
    have hmilli : millisecond = 1000000 := rfl
    have hle := abs_sub_le (wrap64 instant) ((unixNano instant).tdiv millisecond * millisecond) instant
    rw [unixNano, abs_sub_comm] at hnear
    rw [unixNano] at hoff hle
    omega
  · intro hrange
    refine ⟨_, _, rfl, parseInt_unixNano instant, ?_⟩
    rwa [unixNano, (wrap64_eq_iff instant).mpr hrange] at hnear ⊢

structure Timed (w t : World σ) (key : Bytes) (instant : Int) : Prop where
  stored : t.db.ttlMap.lookup key = some instant
  handed : ∃ lines, t.aof = w.aof ++ lines ++ [makeExpireCmd key instant]

theorem Timed.meets_iff {now instant : Int} {key : Bytes} (h : Timed w t key instant) (a : Asked) :
    Meets now w t key a ↔ instant = a.instant now ∧ InRange instant := by
  obtain ⟨lines, haof⟩ := h.handed
  constructor
  · intro hmeets
    have heq : instant = a.instant now := Option.some.inj (h.stored.symm.trans hmeets.stored)
    obtain ⟨lines', line, haof', hdenotes⟩ := hmeets.handed
    have hlast := (List.append_inj' (haof.symm.trans haof') rfl).2
    rw [← List.head_eq_of_cons_eq hlast, ← heq] at hdenotes
    exact ⟨heq, (makeExpireCmd_denotes_iff key instant).mp hdenotes⟩
  · rintro ⟨heq, hrange⟩
    subst heq
    refine ⟨h.stored, ?_, lines, _, haof, (makeExpireCmd_denotes_iff key _).mpr hrange⟩
    rintro duration rfl hpos
    exact ⟨_, h.stored, Int.lt_add_of_pos_right now hpos⟩

theorem Timed.fromNow_iff {now duration : Int} {key : Bytes} (h : Timed w t key (now + wrap64 duration)) :
    Meets now w t key (.fromNow duration) ↔ (Asked.fromNow duration).Fits now := by
  rw [h.meets_iff, Asked.instant, Asked.Fits, ← wrap64_eq_iff duration, Int.add_right_inj]
  apply and_congr_right
  intro heq
  rw [heq]

theorem Timed.at_iff {now instant i : Int} {key : Bytes} (h : Timed w t key i)
    (hi : i = instant ∧ InRange i ↔ InRange instant) :
    Meets now w t key (.at_ instant) ↔ (Asked.at_ instant).Fits now := by
  rw [h.meets_iff]
  exact hi

theorem expireCommand_timed {instant : Int → Int} {key : Slice} {args : List Slice} {reply : Reply}
    (h : Runs (expireCommand env instant (key :: args)) w reply t) (haccepts : Accepts reply) :
    ∃ rawTime rest n, args = rawTime :: rest ∧ parseInt 64 (text rawTime) = some n ∧
      Timed w t (text key) (instant n) := by
  rcases args with _ | ⟨rawTime, rest⟩
  · exact absurd h Runs.not_panics
  cases hn : parseInt 64 (text rawTime) with
  | none =>
      simp only [expireCommand, hn] at h
      obtain ⟨rfl, -⟩ := Runs.pure_iff.mp h
      exact absurd haccepts.1 (by decide)
  | some n =>
      refine ⟨rawTime, rest, n, rfl, hn, ?_⟩
      simp only [expireCommand, hn] at h
      refine h.of_wp (Q := fun r t => ∀ reply, r = some reply → Accepts reply → Timed w t (text key) (instant n))
        ?_ reply rfl haccepts
      rw [wp_bind, wp_getEntity]
      cases w.db.live env (text key) with
      | none =>
          rintro reply ⟨⟩ haccepts
          exact absurd rfl haccepts.2.1
      | some e =>
          rintro reply - -
          refine ⟨?_, [], ?_⟩
          · simp [DB.expire]
          · simp

theorem setWithTTL_timed {unit : Int} {key : Slice} {args : List Slice} {reply : Reply}
    (h : Runs (setWithTTL env unit (key :: args)) w reply t) (haccepts : Accepts reply) :
    ∃ rawTTL rest n, args = rawTTL :: rest ∧ parseInt 64 (text rawTTL) = some n ∧
      Timed w t (text key) (after env (wrap64 (n * unit))) := by
  rcases args with _ | ⟨rawTTL, _ | ⟨value, rest⟩⟩
  · exact absurd h Runs.not_panics
  · exact absurd h Runs.not_panics
  have hfinal := @setWithTTL_final σ env unit key rawTTL value rest w
  rw [h.final] at hfinal
  cases hn : parseInt 64 (text rawTTL) with
  | none =>
      simp only [setWithTTL, hn] at h
      obtain ⟨rfl, -⟩ := Runs.pure_iff.mp h
      exact absurd haccepts.1 (by decide)
  | some n =>
      refine ⟨rawTTL, value :: rest, n, rfl, hn, ?_⟩
      rw [hn] at hfinal
      dsimp only at hfinal
      by_cases hle : n ≤ 0
      · simp only [setWithTTL, hn, if_pos hle] at h
        obtain ⟨rfl, -⟩ := Runs.pure_iff.mp h
        exact absurd haccepts.1 (by decide)
      · rw [if_neg hle] at hfinal
        rw [hfinal]
        refine ⟨?_, [cmdLine3 "setex" (key :: rawTTL :: value :: rest)], ?_⟩
        · simp [DB.expire]
        · simp

/-- How the options that ask for these times to live, in milliseconds, leave the one they find: only a time
to live that wraps to none lets another one follow. -/
def Decides (ttl : Int) (asked : List Int) (ttl' : Int) : Prop :=
  asked = [] ∧ ttl' = ttl ∨
    ttl = unlimitedTTL ∧ ∃ earlier ms, asked = earlier ++ [ms] ∧ (∀ m ∈ earlier, 2 ^ 64 ≤ m) ∧
      0 < ms ∧ ttl' = wrap64 ms

theorem large_of_wrap64 {ms : Int} (hpos : 0 < ms) (hzero : wrap64 ms = unlimitedTTL) : 2 ^ 64 ≤ ms := by
  rw [unlimitedTTL, wrap64] at hzero
  have hdvd := Int.dvd_of_bmod_eq_zero hzero
  exact Int.le_of_dvd hpos (by exact_mod_cast hdvd)

theorem Decides.cons {ms ttl' : Int} {asked : List Int} (hpos : 0 < ms) (h : Decides (wrap64 ms) asked ttl') :
    Decides unlimitedTTL (ms :: asked) ttl' := by
  right
  refine ⟨rfl, ?_⟩
  rcases h with ⟨rfl, rfl⟩ | ⟨hzero, earlier, last, rfl, hearlier, hlast, rfl⟩
  · exact ⟨[], ms, rfl, by simp, hpos, rfl⟩
  · refine ⟨ms :: earlier, last, rfl, ?_, hlast, rfl⟩
    exact List.forall_mem_cons.mpr ⟨large_of_wrap64 hpos hzero, hearlier⟩

theorem ttlArg_ok {name : String} {ttl n : Int} {arg : Slice} (h : ttlArg name ttl arg = .ok n) :
    ttl = unlimitedTTL ∧ parseInt 64 (text arg) = some n ∧ 0 < n := by
  rw [ttlArg] at h
  split at h
  · cases h
  · next httl =>
      split at h
      · cases h
      · next m hm =>
          split at h
          · cases h
          · next hpos =>
              cases h
              exact ⟨not_not.mp httl, hm, by omega⟩

theorem askedTTLs_ex {arg : Slice} (h : toUpper (text arg) = bytes "EX") (n : Slice) (rest : List Slice) :
    askedTTLs (arg :: n :: rest) = ((parseInt 64 (text n)).map (· * 1000)).toList ++ askedTTLs rest := by
  rw [askedTTLs, if_pos h]

theorem askedTTLs_px {arg : Slice} (h : toUpper (text arg) = bytes "PX") (n : Slice) (rest : List Slice) :
    askedTTLs (arg :: n :: rest) = (parseInt 64 (text n)).toList ++ askedTTLs rest := by
  rw [askedTTLs, if_neg (by rw [h]; decide), if_pos h]

theorem askedTTLs_other {arg : Slice} (hex : toUpper (text arg) ≠ bytes "EX")
    (hpx : toUpper (text arg) ≠ bytes "PX") (rest : List Slice) :
    askedTTLs (arg :: rest) = askedTTLs rest := by
  rw [askedTTLs.eq_def]
  simp only [if_neg hex, if_neg hpx]

theorem decides_ex {name : String} {ttl ttl' n : Int} {arg rawTTL : Slice} {rest : List Slice}
    (h : toUpper (text arg) = bytes "EX") (hn : ttlArg name ttl rawTTL = .ok n)
    (ih : Decides (wrap64 (n * 1000)) (askedTTLs rest) ttl') :
    Decides ttl (askedTTLs (arg :: rawTTL :: rest)) ttl' := by
  obtain ⟨rfl, hparse, hpos⟩ := ttlArg_ok hn
  rw [askedTTLs_ex h, hparse]
  exact ih.cons (Int.mul_pos hpos (by decide))

theorem decides_px {name : String} {ttl ttl' n : Int} {arg rawTTL : Slice} {rest : List Slice}
    (h : toUpper (text arg) = bytes "PX") (hn : ttlArg name ttl rawTTL = .ok n)
    (ih : Decides n (askedTTLs rest) ttl') : Decides ttl (askedTTLs (arg :: rawTTL :: rest)) ttl' := by
  obtain ⟨rfl, hparse, hpos⟩ := ttlArg_ok hn
  rw [askedTTLs_px h, hparse]
  obtain ⟨hlow, hhigh⟩ := parseInt_range hparse
  rw [← wrap64_of_lt hlow hhigh] at ih
  exact ih.cons hpos

theorem setOptions_error {policy : Policy} {ttl : Int} {options : List Slice} {e : Reply}
    (h : setOptions policy ttl options = .error e) : isErrorReply e = true := by
  fun_induction setOptions policy ttl options with
  | case1 => cases h
  | case2 | case4 | case6 | case9 | case12 =>
      cases h
      rfl
  | case7 policy ttl arg name _ _ _ rawTTL rest e' he | case10 policy ttl arg name _ _ _ _ rawTTL rest e' he =>
      cases h
      exact ttlArg_error he
  | case3 _ _ _ _ _ _ _ ih | case5 _ _ _ _ _ _ _ _ ih | case8 _ _ _ _ _ _ _ _ _ _ _ ih
  | case11 _ _ _ _ _ _ _ _ _ _ _ _ ih => exact ih h

theorem setOptions_decides {policy policy' : Policy} {ttl ttl' : Int} {options : List Slice}
    (h : setOptions policy ttl options = .ok (policy', ttl')) : Decides ttl (askedTTLs options) ttl' := by
  fun_induction setOptions policy ttl options with
  | case1 =>
      cases h
      exact .inl ⟨rfl, rfl⟩
  | case2 | case4 | case6 | case7 | case9 | case10 | case12 => cases h
  | case3 policy ttl arg rest name hname _ ih =>
      rw [askedTTLs_other (by rw [show toUpper (text arg) = bytes "NX" from hname]; decide)
        (by rw [show toUpper (text arg) = bytes "NX" from hname]; decide)]
      exact ih h
  | case5 policy ttl arg rest name _ hname _ ih =>
      rw [askedTTLs_other (by rw [show toUpper (text arg) = bytes "XX" from hname]; decide)
        (by rw [show toUpper (text arg) = bytes "XX" from hname]; decide)]
      exact ih h
  | case8 policy ttl arg name _ _ hname rawTTL rest n hn ih => exact decides_ex hname hn (ih h)
  | case11 policy ttl arg name _ _ _ hname rawTTL rest n hn ih => exact decides_px hname hn (ih h)

/-- `PERSIST` and the options that are not known ask for no time to live. -/
theorem getExParse_decides {ttl ttl' : Int} {options : List Slice}
    (h : (getExParse ttl options).2 = .ok ttl') : Decides ttl (askedTTLs options) ttl' := by
  fun_induction getExParse ttl options with
  | case1 =>
      cases h
      exact .inl ⟨rfl, rfl⟩
  | case2 | case3 | case5 | case6 | case8 => cases h
  | case4 ttl arg name hname rawTTL rest n hn ih => exact decides_ex hname hn (ih h)
  | case7 ttl arg name _ hname rawTTL rest n hn ih => exact decides_px hname hn (ih h)
  | case9 ttl arg rest name hex hpx _ _ ih | case10 ttl arg rest name hex hpx _ ih =>
      rw [askedTTLs_other hex hpx]
      exact ih h

def TimedBy (env : Env σ) (w t : World σ) (key : Bytes) (ttl : Int) : Prop :=
  if ttl = unlimitedTTL then t.db.ttlMap.lookup key = none else Timed w t key (after env ttl)

theorem execSet_timed {key : Slice} {args : List Slice} {reply : Reply}
    (h : Runs (execSet env (key :: args)) w reply t) (haccepts : Accepts reply) :
    ∃ value options policy ttl, args = value :: options ∧
      setOptions .upsert unlimitedTTL options = .ok (policy, ttl) ∧ TimedBy env w t (text key) ttl := by
  rcases args with _ | ⟨value, options⟩
  · exact absurd h Runs.not_panics
  cases ho : setOptions .upsert unlimitedTTL options with
  | error e =>
      simp only [execSet, ho] at h
      obtain ⟨rfl, -⟩ := Runs.pure_iff.mp h
      exact absurd (haccepts.1.symm.trans (setOptions_error ho)) Bool.false_ne_true
  | ok p =>
      obtain ⟨policy, ttl⟩ := p
      have hfinal := @execSet_final σ env key value options w
      have hvalue := h.value.symm.trans (execSet_value ho w)
      rw [h.final, ho] at hfinal
      refine ⟨value, options, policy, ttl, rfl, ho, ?_⟩
      cases hallows : policy.allows (w.db.slot (text key)).data.isSome with
      | false =>
          rw [hallows] at hvalue
          exact absurd (Option.some.inj hvalue) haccepts.2.2
      | true =>
          dsimp only at hfinal
          rw [if_pos hallows] at hfinal
          rw [hfinal, TimedBy]
          by_cases httl : ttl = unlimitedTTL
          · rw [if_pos httl, if_neg (not_not.mpr httl)]
            simp [DB.persist]
          · rw [if_neg httl, if_pos httl]
            refine ⟨?_, [cmdLine3 "SET" [key, value]], ?_⟩
            · simp [DB.expire]
            · simp

theorem string_error {s : Slot σ} {now : Int} {e : Reply} (h : s.string now = .error e) :
    isErrorReply e = true := by
  rw [Slot.string] at h
  split at h
  · cases h
  · split at h
    · cases h
      rfl
    · cases h

theorem execGetEX_timed {key : Slice} {options : List Slice} {reply : Reply}
    (h : Runs (execGetEX env (key :: options)) w reply t) (haccepts : Accepts reply) :
    ∃ ttl, (getExParse unlimitedTTL options).2 = .ok ttl ∧
      (options = [] ∨ TimedBy env w t (text key) ttl) := by
  refine h.of_wp (Q := fun r t => ∀ reply, r = some reply → Accepts reply → ∃ ttl,
    (getExParse unlimitedTTL options).2 = .ok ttl ∧ (options = [] ∨ TimedBy env w t (text key) ttl))
    ?_ reply rfl haccepts
  simp only [execGetEX, wp_bind, wp_getAsString]
  cases hs : (w.db.slot (text key)).string env.now with
  | error e =>
      rintro reply ⟨⟩ haccepts
      exact absurd (haccepts.1.symm.trans (string_error hs)) Bool.false_ne_true
  | ok o =>
      cases o with
      | none =>
          rintro reply ⟨⟩ haccepts
          exact absurd rfl haccepts.2.2
      | some s =>
          simp only [wp_bind, wp_getExOptions]
          cases hparse : (getExParse unlimitedTTL options).2 with
          | error e =>
              rintro reply ⟨⟩ haccepts
              exact absurd (haccepts.1.symm.trans (getExParse_error hparse)) Bool.false_ne_true
          | ok ttl =>
              dsimp only
              by_cases hoptions : options = []
              · rw [if_pos hoptions]
                exact fun reply _ _ => ⟨ttl, rfl, .inl hoptions⟩
              · rw [if_neg hoptions]
                by_cases httl : ttl = unlimitedTTL
                · rw [if_neg (not_not.mpr httl)]
                  refine fun reply _ _ => ⟨ttl, rfl, .inr ?_⟩
                  rw [TimedBy, if_pos httl]
                  simp [DB.persist]
                · rw [if_pos httl]
                  refine fun reply _ _ => ⟨ttl, rfl, .inr ?_⟩
                  rw [TimedBy, if_neg httl]
                  refine ⟨?_, [], ?_⟩
                  · simp [DB.expire]
                  · split <;> simp

theorem after_wrap64 (env : Env σ) (ms : Int) :
    after env (wrap64 ms) = env.now + wrap64 (ms * millisecond) := by
  rw [after, wrap64, wrap64, wrap64, Int.bmod_mul_bmod]

theorem not_fits_of_large {now ms : Int} (h : 2 ^ 64 ≤ ms) :
    ¬ (Asked.fromNow (ms * millisecond)).Fits now := by
  rw [Asked.Fits, InRange, millisecond]
  omega

/-- What is stored is no further ahead than a duration reaches. -/
theorem not_meets_of_large {key : Bytes} {ttl ms : Int} (ht : TimedBy env w t key ttl) (h : 2 ^ 64 ≤ ms) :
    ¬ Meets env.now w t key (.fromNow (ms * millisecond)) := by
  intro hmeets
  have hstored := hmeets.stored
  rw [TimedBy] at ht
  split at ht
  · rw [ht] at hstored
    cases hstored
  · rw [ht.stored, after, Option.some.injEq, Asked.instant, Int.add_right_inj] at hstored
    have hrange := wrap64_range (ttl * millisecond)
    rw [hstored, millisecond] at hrange
    omega

theorem meets_iff_of_decides {key : Bytes} {ms : List Int} {ttl : Int} (h : Decides unlimitedTTL ms ttl)
    (ht : ms = [] ∨ TimedBy env w t key ttl) :
    (∀ a ∈ ms.map fun m => Asked.fromNow (m * millisecond), Meets env.now w t key a) ↔
      ∀ a ∈ ms.map fun m => Asked.fromNow (m * millisecond), a.Fits env.now := by
  simp only [List.forall_mem_map]
  rcases h with ⟨rfl, -⟩ | ⟨-, earlier, last, rfl, hearlier, hpos, rfl⟩
  · exact iff_of_true (by simp) (by simp)
  have htimed := ht.resolve_left (by simp)
  by_cases hlarge : ∃ m ∈ earlier ++ [last], 2 ^ 64 ≤ m
  · obtain ⟨m, hm, hle⟩ := hlarge
    exact iff_of_false (fun hall => not_meets_of_large htimed hle (hall m hm))
      fun hall => not_fits_of_large hle (hall m hm)
  · have hnil : earlier = [] := List.eq_nil_iff_forall_not_mem.mpr fun m hm =>
      hlarge ⟨m, List.mem_append_left _ hm, hearlier m hm⟩
    have hne : wrap64 last ≠ unlimitedTTL := fun hzero =>
      hlarge ⟨last, by simp, large_of_wrap64 hpos hzero⟩
    rw [TimedBy, if_neg hne, after_wrap64] at htimed
    rw [hnil]
    simpa using htimed.fromNow_iff

theorem unixTime_exact_iff (n : Int) :
    unixTime n = n * second ∧ InRange (unixTime n) ↔ InRange (n * second) := by
  constructor
  · rintro ⟨heq, hrange⟩
    rwa [heq] at hrange
  · intro hrange
    have hseconds : wrap64 (n + 62135596800) = n + 62135596800 := by
      rw [InRange, second] at hrange
      exact wrap64_of_lt (by omega) (by omega)
    have heq : unixTime n = n * second := by
      rw [unixTime, hseconds, Int.add_sub_cancel]
    exact ⟨heq, by rwa [heq]⟩

theorem wrap64_exact_iff (i : Int) : wrap64 i = i ∧ InRange (wrap64 i) ↔ InRange i := by
  have hrange : InRange (wrap64 i) := wrap64_range i
  rw [wrap64_eq_iff, and_iff_left hrange]

theorem meets_askedTime_iff {key : Bytes} {unit n : Int} {ask : Int → Asked} {rawTime : Slice}
    (hn : parseInt 64 (text rawTime) = some n)
    (h : Meets env.now w t key (ask (n * unit)) ↔ (ask (n * unit)).Fits env.now) :
    (∀ a ∈ askedTime unit ask rawTime, Meets env.now w t key a) ↔
      ∀ a ∈ askedTime unit ask rawTime, a.Fits env.now := by
  simpa [askedTime, hn] using h

section

variable [LinearOrder σ] [Inhabited σ] {c : CommandName} {key : Slice} {args : List Slice} {reply : Reply}

variable (env) in
def Exact (c : CommandName) (key : Slice) (args : List Slice) (w : World σ) : Prop :=
  ∀ reply t, Runs ((command env c).executor (key :: args)) w reply t → Accepts reply →
    ∀ a ∈ asked c args, Meets env.now w t (text key) a

omit [LinearOrder σ] [Inhabited σ] in
theorem expireCommand_meets_iff {instant : Int → Int} {unit : Int} {ask : Int → Asked} {rawTime : Slice}
    {rest : List Slice} (h : Runs (expireCommand env instant (key :: rawTime :: rest)) w reply t)
    (haccepts : Accepts reply)
    (hinstant : ∀ n, Timed w t (text key) (instant n) →
      (Meets env.now w t (text key) (ask (n * unit)) ↔ (ask (n * unit)).Fits env.now)) :
    (∀ a ∈ askedTime unit ask rawTime, Meets env.now w t (text key) a) ↔
      ∀ a ∈ askedTime unit ask rawTime, a.Fits env.now := by
  obtain ⟨_, _, n, hargs, hn, htimed⟩ := expireCommand_timed h haccepts
  cases hargs
  exact meets_askedTime_iff hn (hinstant n htimed)

omit [LinearOrder σ] [Inhabited σ] in
theorem setWithTTL_meets_iff {unit : Int} {rawTTL : Slice} {rest : List Slice}
    (h : Runs (setWithTTL env unit (key :: rawTTL :: rest)) w reply t) (haccepts : Accepts reply) :
    (∀ a ∈ askedTime (unit * millisecond) .fromNow rawTTL, Meets env.now w t (text key) a) ↔
      ∀ a ∈ askedTime (unit * millisecond) .fromNow rawTTL, a.Fits env.now := by
  obtain ⟨_, _, n, hargs, hn, htimed⟩ := setWithTTL_timed h haccepts
  cases hargs
  rw [after_wrap64, Int.mul_assoc] at htimed
  exact meets_askedTime_iff hn htimed.fromNow_iff

theorem meets_iff_fits (h : Runs ((command env c).executor (key :: args)) w reply t)
    (haccepts : Accepts reply) :
    (∀ a ∈ asked c args, Meets env.now w t (text key) a) ↔ ∀ a ∈ asked c args, a.Fits env.now := by
  fun_cases asked c args with
  | case1 rawTime rest =>
      have hrun : Runs (execExpire env (key :: rawTime :: rest)) w reply t := h
      exact expireCommand_meets_iff hrun haccepts fun n htimed => htimed.fromNow_iff
  | case2 rawTime rest =>
      have hrun : Runs (execPExpire env (key :: rawTime :: rest)) w reply t := h
      exact expireCommand_meets_iff hrun haccepts fun n htimed => htimed.fromNow_iff
  | case3 rawTime rest =>
      have hrun : Runs (execExpireAt env (key :: rawTime :: rest)) w reply t := h
      exact expireCommand_meets_iff hrun haccepts fun n htimed => htimed.at_iff (unixTime_exact_iff n)
  | case4 rawTime rest =>
      have hrun : Runs (execPExpireAt env (key :: rawTime :: rest)) w reply t := h
      exact expireCommand_meets_iff hrun haccepts fun n htimed => htimed.at_iff (wrap64_exact_iff _)
  | case5 rawTTL rest =>
      have hrun : Runs (execSetEX env (key :: rawTTL :: rest)) w reply t := h
      exact setWithTTL_meets_iff hrun haccepts
  | case6 rawTTL rest =>
      have hrun : Runs (execPSetEX env (key :: rawTTL :: rest)) w reply t := h
      exact setWithTTL_meets_iff hrun haccepts
  | case7 value options =>
      have hrun : Runs (execSet env (key :: value :: options)) w reply t := h
      obtain ⟨_, _, policy, ttl, hargs, ho, htimed⟩ := execSet_timed hrun haccepts
      cases hargs
      exact meets_iff_of_decides (setOptions_decides ho) (.inr htimed)
  | case8 =>
      have hrun : Runs (execGetEX env (key :: args)) w reply t := h
      obtain ⟨ttl, hparse, htimed⟩ := execGetEX_timed hrun haccepts
      refine meets_iff_of_decides (getExParse_decides hparse) (htimed.imp_left ?_)
      rintro rfl
      rfl
  | case9 => exact iff_of_true (by simp) (by simp)

/-- A time that is asked for is the one that is kept and handed on exactly when no product with a unit and no
sum with the clock wraps. -/
theorem expirations_exact_iff (h : Runs ((command env c).executor (key :: args)) w reply t)
    (haccepts : Accepts reply) : Exact env c key args w ↔ ∀ a ∈ asked c args, a.Fits env.now := by
  rw [← meets_iff_fits h haccepts]
  refine ⟨fun hexact => hexact reply t h haccepts, fun hmeets reply' t' h' _ => ?_⟩
  obtain ⟨-, rfl⟩ := h.unique h'
  exact hmeets

end

theorem expirations_exact_iff_setEX :
    Exact (Env.plain 0) .setEX (some (bytes "a")) [some (bytes "10"), some (bytes "1")] World.empty := by
  have hrun : Runs ((command (Env.plain 0) .setEX).executor
      [some (bytes "a"), some (bytes "10"), some (bytes "1")]) World.empty .ok _ := Runs.of_value rfl
  have hasked : asked .setEX [some (bytes "10"), some (bytes "1")] = [.fromNow (10 * second)] := rfl
  refine (expirations_exact_iff hrun ⟨rfl, by simp, by simp⟩).mpr ?_
  rw [hasked, List.forall_mem_singleton]
  exact ⟨by decide, by decide⟩

/-- Three hundred years are more nanoseconds than a duration holds. -/
theorem expirations_exact_fails : ¬ Exact (Env.plain 0) .setEX (some (bytes "a"))
    [some (bytes "9460800000"), some (bytes "1")] World.empty := by
  intro hexact
  have hrun : Runs ((command (Env.plain 0) .setEX).executor
      [some (bytes "a"), some (bytes "9460800000"), some (bytes "1")]) World.empty .ok _ := Runs.of_value rfl
  have haccepts : Accepts .ok := ⟨rfl, by simp, by simp⟩
  have hasked : asked .setEX [some (bytes "9460800000"), some (bytes "1")] =
      [.fromNow (9460800000 * second)] := rfl
  have hfits := (meets_iff_fits hrun haccepts).mp (hexact _ _ hrun haccepts)
  rw [hasked, List.forall_mem_singleton] at hfits
  exact absurd hfits.1 (by decide)

end Traitor.Database
