import Traitor.ExactTimes

namespace Traitor.Database

open Lib.Effects Lib.Strconv Protocol

variable {σ : Type} {env : Env σ} {w : World σ} {key : Slice}

inductive Counter
  | incr
  | incrBy (rawDelta : Slice)
  | decr
  | decrBy (rawDelta : Slice)
  | hIncrBy (field rawDelta : Slice)

namespace Counter

def exec (env : Env σ) (key : Slice) : Counter → Exec σ Reply
  | .incr => execIncr env [key]
  | .incrBy rawDelta => execIncrBy env [key, rawDelta]
  | .decr => execDecr env [key]
  | .decrBy rawDelta => execDecrBy env [key, rawDelta]
  | .hIncrBy field rawDelta => execHIncrBy env [key, field, rawDelta]

def delta : Counter → Option Int
  | .incr => some 1
  | .incrBy rawDelta => parseInt 64 (text rawDelta)
  | .decr => some (-1)
  | .decrBy rawDelta => (parseInt 64 (text rawDelta)).map (-·)
  | .hIncrBy _ rawDelta => parseInt 64 (text rawDelta)

/-- The text that the command adds to, none for a value without one. Nothing and the nil slice are no text yet. -/
def shown : Counter → Option (Entity σ) → Option Slice
  | _, none => some none
  | .hIncrBy field _, some (.hash d) =>
      match d.lookup (text field) with
      | none => some none
      | some (.slice s) => some (some (text s))
      | some (.string _) => none
  | .hIncrBy _ _, _ => none
  | _, some (.str s) => some s
  | _, _ => none

def number : Slice → Option Int
  | none => some 0
  | some s => parseInt 64 s

def sum (c : Counter) (e : Option (Entity σ)) : Option Int :=
  ((c.shown e).bind number).bind fun val => c.delta.map (val + ·)

def told : Reply → Option Int
  | .int n => some n
  | .bulk s => parseInt 64 (text s)
  | _ => none

def Counted (c : Counter) (e : Option (Entity σ)) (key : Bytes) (r : Option Reply) (w' : World σ) : Prop :=
  ∃ n reply s, c.sum e = some n ∧ r = some reply ∧ told reply = some n ∧
    c.shown (w'.db.data.lookup key) = some (some s) ∧ parseInt 64 s = some n

/-- The command adds without a wrap, or answers with an error and changes nothing. -/
def Exact (env : Env σ) (c : Counter) (key : Slice) (w : World σ) : Prop :=
  wp (c.exec env key) (fun r w' =>
    c.Counted (w.db.live env (text key)) (text key) r w' ∨ Failed r ∧ w' = w) w

variable {c : Counter} {e : Option (Entity σ)}

theorem parseInt_wrap64 (n : Int) : parseInt 64 (formatInt (wrap64 n)) = some (wrap64 n) :=
  parseInt_formatInt (wrap64_range n).1 (wrap64_range n).2

/-- A command that stores and answers with the wrapped sum. -/
theorem stores_iff {n : Int} {reply : Reply} {s k : Bytes} {w' : World σ} (hsum : c.sum e = some n)
    (htold : told reply = some (wrap64 n)) (hreply : isErrorReply reply = false)
    (hshown : c.shown (w'.db.data.lookup k) = some (some s)) (hs : parseInt 64 s = some (wrap64 n)) :
    c.Counted e k (some reply) w' ∨ Failed (some reply) ∧ w' = w ↔ ∀ n ∈ c.sum e, InRange n := by
  rw [hsum]
  constructor
  · rintro (⟨m, _, _, hm, ⟨⟩, htold', -⟩ | ⟨hfailed, -⟩)
    · rw [hsum] at hm
      cases hm
      rintro k ⟨⟩
      rw [htold] at htold'
      exact (wrap64_eq_iff n).mp (Option.some.inj htold')
    · rw [Failed, Option.getD_some, hreply] at hfailed
      exact absurd hfailed Bool.false_ne_true
  · intro hrange
    have hwrap : wrap64 n = n := (wrap64_eq_iff n).mpr (hrange n rfl)
    rw [hwrap] at htold hs
    exact .inl ⟨n, reply, s, hsum, rfl, htold, hshown, hs⟩

/-- A command that answers with an error where there is no sum. -/
theorem fails_iff {r : Option Reply} {k : Bytes} (hsum : c.sum e = none) (hr : Failed r) :
    c.Counted e k r w ∨ Failed r ∧ w = w ↔ ∀ n ∈ c.sum e, InRange n := by
  rw [hsum]
  exact iff_of_true (.inr ⟨hr, rfl⟩) (by simp)

/-- The commands that add to a string. -/
theorem addInteger_exact_iff {name : String} {args : List Slice} {delta : Int} {initial : Bytes}
    (hexec : c.exec env key = addInteger env name args (text key) delta (some initial) (wrap64 delta))
    (hdelta : c.delta = some delta) (hshown : ∀ e : Entity σ, c.shown (some e) = e.asString)
    (hinitial : parseInt 64 initial = some (wrap64 delta)) :
    c.Exact env key w ↔ ∀ n ∈ c.sum (w.db.live env (text key)), InRange n := by
  have hstored (db : DB σ) (s : Slice) :
      c.shown ((db.put (text key) (.str s)).data.lookup (text key)) = some s := by
    rw [DB.put, Finmap.lookup_insert, hshown]
    rfl
  have hfirst (e : Option (Entity σ)) (h : c.shown e = some none) : c.sum e = some delta := by
    rw [sum, h, hdelta]
    exact congrArg some (Int.zero_add delta)
  rw [Exact, hexec, addInteger, wp_bind, wp_getAsString, Slot.string, ← DB.live_slot]
  cases hlive : w.db.live env (text key) with
  | none => exact stores_iff (hfirst none rfl) rfl rfl (hstored _ _) hinitial
  | some e =>
      rw [DB.evict_of_live hlive]
      dsimp only
      cases hs : e.asString with
      | none =>
          dsimp only
          apply fails_iff
          · rw [sum, hshown, hs]
            rfl
          · rfl
      | some s =>
          have hshows : c.shown (some e) = some s := (hshown e).trans hs
          cases s with
          | none =>
              dsimp only
              apply stores_iff (hfirst _ hshows) rfl rfl ?_ hinitial
              exact hstored w.db _
          | some s =>
              dsimp only
              cases hval : parseInt 64 s with
              | none =>
                  apply fails_iff
                  · rw [sum, hshows, Option.bind_some, number, hval]
                    rfl
                  · rfl
              | some val =>
                  have hsum : c.sum (some e) = some (val + delta) := by
                    rw [sum, hshows, Option.bind_some, number, hval, hdelta]
                    rfl
                  apply stores_iff hsum rfl rfl ?_ (parseInt_wrap64 _)
                  exact hstored w.db _

theorem notInteger_exact_iff (hexec : c.exec env key = return notInteger) (hdelta : c.delta = none) :
    c.Exact env key w ↔ ∀ n ∈ c.sum (w.db.live env (text key)), InRange n := by
  rw [Exact, hexec, wp_pure]
  apply fails_iff
  · rw [sum, hdelta]
    cases (c.shown (w.db.live env (text key))).bind number <;> rfl
  · rfl

theorem wrap64_of_parse {s : Bytes} {n : Int} (h : parseInt 64 s = some n) : wrap64 n = n :=
  wrap64_of_lt (parseInt_range h).1 (parseInt_range h).2

theorem some_of_parse {s : Slice} {n : Int} (h : parseInt 64 (text s) = some n) : s = some (text s) := by
  cases s with
  | none => cases h
  | some s => rfl

theorem hIncrBy_exact_iff (field rawDelta : Slice) :
    (hIncrBy field rawDelta).Exact env key w ↔
      ∀ n ∈ (hIncrBy field rawDelta).sum (w.db.live env (text key)), InRange n := by
  cases hdelta : parseInt 64 (text rawDelta) with
  | none =>
      apply notInteger_exact_iff
      · rw [exec, execHIncrBy, hdelta]
      · exact hdelta
  | some delta =>
      have hstored (db : DB σ) (d : Dict HashValue) (s : Slice) : (hIncrBy field rawDelta).shown
          ((db.put (text key) (.hash (d.insert (text field) (.slice s)))).data.lookup (text key)) =
          some (some (text s)) := by
        rw [DB.put, Finmap.lookup_insert, shown, Finmap.lookup_insert]
      have hsum (e : Option (Entity σ)) (h : (hIncrBy field rawDelta).shown e = some none) :
          (hIncrBy field rawDelta).sum e = some delta := by
        rw [sum, h, Counter.delta, hdelta]
        exact congrArg some (Int.zero_add delta)
      have hreply : told (.bulk rawDelta) = some (wrap64 delta) := by
        rw [told, hdelta, wrap64_of_parse hdelta]
      rw [Exact, exec, execHIncrBy]
      simp only [hdelta, getOrInitDict, getOrInit, wp_bind, wp_getAs, DB.view]
      cases hlive : w.db.live env (text key) with
      | none =>
          simp only [wp_bind, putEntity, wp_modifyDB, wp_pure, Finmap.lookup_empty, wp_addAof]
          apply stores_iff (hsum none rfl) hreply (isErrorReply_bulk _) (hstored _ _ _)
          rw [hdelta, wrap64_of_parse hdelta]
      | some e =>
          rw [DB.evict_of_live hlive]
          cases e with
          | hash d =>
              dsimp only [Entity.asHash, wp_pure]
              cases hv : d.lookup (text field) with
              | none =>
                  simp only [wp_pure, wp_bind, setDict, putEntity, wp_modifyDB, wp_addAof]
                  apply stores_iff (hsum _ ?_) hreply (isErrorReply_bulk _) (hstored _ _ _)
                  · rw [hdelta, wrap64_of_parse hdelta]
                  · rw [shown, hv]
              | some value =>
                  cases value with
                  | string s =>
                      dsimp only [wp_panics]
                      apply fails_iff
                      · rw [sum, shown, hv]
                        rfl
                      · rfl
                  | slice s =>
                      cases hval : parseInt 64 (text s) with
                      | none =>
                          simp only [hval]
                          dsimp only [wp_pure]
                          apply fails_iff
                          · rw [sum, shown, hv, Option.bind_some, number, hval]
                            rfl
                          · rfl
                      | some val =>
                          simp only [hval, wp_pure, wp_bind, setDict, putEntity, wp_modifyDB, wp_addAof]
                          have htold : told (.bulk (some (formatInt (wrap64 (val + delta))))) =
                              some (wrap64 (val + delta)) := parseInt_wrap64 _
                          apply stores_iff ?_ htold (isErrorReply_bulk _) (hstored _ _ _) (parseInt_wrap64 _)
                          rw [sum, shown, hv, Option.bind_some, number, hval, Counter.delta, hdelta]
                          rfl
          | str | list | set | zset =>
              dsimp only [Entity.asHash, wp_pure]
              apply fails_iff
              · rfl
              · rfl

/-- The commands that add never wrap exactly when the sum is a 64-bit integer. -/
theorem counters_exact_iff (env : Env σ) (c : Counter) (key : Slice) (w : World σ) :
    c.Exact env key w ↔ ∀ n ∈ c.sum (w.db.live env (text key)), InRange n := by
  cases c with
  | incr => exact addInteger_exact_iff rfl rfl (fun e => by cases e <;> rfl) rfl
  | decr => exact addInteger_exact_iff rfl rfl (fun e => by cases e <;> rfl) rfl
  | incrBy rawDelta =>
      cases hdelta : parseInt 64 (text rawDelta) with
      | none =>
          apply notInteger_exact_iff
          · rw [exec, execIncrBy, hdelta]
          · exact hdelta
      | some delta =>
          apply addInteger_exact_iff
          · rw [exec, execIncrBy, hdelta, wrap64_of_parse hdelta, ← some_of_parse hdelta]
          · exact hdelta
          · exact fun e => by cases e <;> rfl
          · rw [hdelta, wrap64_of_parse hdelta]
  | decrBy rawDelta =>
      cases hdelta : parseInt 64 (text rawDelta) with
      | none =>
          apply notInteger_exact_iff
          · rw [exec, execDecrBy, hdelta]
          · rw [delta, hdelta]
            rfl
      | some delta =>
          apply addInteger_exact_iff
          · rw [exec, execDecrBy, hdelta]
          · rw [Counter.delta, hdelta]
            rfl
          · exact fun e => by cases e <;> rfl
          · exact parseInt_wrap64 _
  | hIncrBy field rawDelta => exact hIncrBy_exact_iff field rawDelta

/-- One more than the largest value is the smallest one. -/
theorem counters_exact_fails : ¬ Counter.incr.Exact (Env.plain 0) (some (bytes "a"))
    { db := World.empty.db.put (bytes "a") (.str (some (bytes "9223372036854775807"))), aof := [] } := by
  intro hexact
  have hrange := (addInteger_exact_iff rfl rfl (fun e => by cases e <;> rfl) rfl).mp hexact
    (9223372036854775807 + 1) ?_
  · exact absurd hrange (by decide)
  · have hval : parseInt 64 (bytes "9223372036854775807") = some 9223372036854775807 := by decide
    change ((parseInt 64 (bytes "9223372036854775807")).bind fun val => (some 1).map (val + ·)) = some _
    rw [hval]
    rfl

end Counter

end Traitor.Database
