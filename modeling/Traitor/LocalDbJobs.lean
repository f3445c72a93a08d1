import Mathlib.Data.List.Nodup
import Traitor.LocalDb

namespace Traitor.LocalDb

open Lib.Strconv Lib.TimeLayout Protocol

/-- The last of the pairs with a field counts. -/
def putPairs (fields : Hash) (l : List (Bytes × Bytes)) : Hash :=
  l.foldl (fun fields p => Function.update fields p.1 (some p.2)) fields

theorem putFields_pairs (fields : Hash) (l : List (Bytes × Bytes)) (args : List Bytes) :
    Db.putFields fields (l.flatMap (fun (k, value) => [k, value]) ++ args) =
      Db.putFields (putPairs fields l) args := by
  induction l generalizing fields with
  | nil => rfl
  | cons p l ih => exact ih (Function.update fields p.1 (some p.2))

/-- What the empty strings at the end leave. -/
theorem putFields_replicate (fields : Hash) (n : Nat) :
    Db.putFields fields (List.replicate (n * 2) []) =
      if n = 0 then fields else Function.update fields [] (some []) := by
  induction n generalizing fields with
  | zero => rfl
  | succ n ih =>
      have hsucc : List.replicate ((n + 1) * 2) ([] : Bytes) = [] :: [] :: List.replicate (n * 2) [] := by
        rw [Nat.add_mul]
        rfl
      rw [hsucc, Db.putFields, ih, if_neg n.succ_ne_zero]
      split
      · rfl
      · exact Function.update_idem _ _ _

theorem putPairs_of_not_mem {fields : Hash} {l : List (Bytes × Bytes)} {k : Bytes}
    (h : k ∉ l.map Prod.fst) : putPairs fields l k = fields k := by
  induction l generalizing fields with
  | nil => rfl
  | cons p l ih =>
      rw [List.map_cons, List.mem_cons, not_or] at h
      have hrest : putPairs (Function.update fields p.1 (some p.2)) l k = _ := ih h.2
      exact hrest.trans (Function.update_of_ne h.1 _ _)

theorem putPairs_of_mem {fields : Hash} {l : List (Bytes × Bytes)} {k value : Bytes}
    (hnodup : (l.map Prod.fst).Nodup) (h : (k, value) ∈ l) : putPairs fields l k = some value := by
  induction l generalizing fields with
  | nil => simp at h
  | cons p l ih =>
      rw [List.map_cons, List.nodup_cons] at hnodup
      rcases List.mem_cons.mp h with rfl | hmem
      · have hrest : putPairs (Function.update fields k (some value)) l k = _ :=
          putPairs_of_not_mem hnodup.1
        exact hrest.trans (Function.update_self _ _ _)
      · exact ih hnodup.2 hmem

theorem mem_pairs {text : Value → Option Bytes} {mp : List (Bytes × Value)} {k value : Bytes} :
    (k, value) ∈ pairs text mp ↔ ∃ v, (k, v) ∈ mp ∧ text v = some value := by
  simp only [pairs, List.mem_filterMap, Prod.exists, Option.map_eq_some_iff, Prod.mk.injEq]
  constructor
  · rintro ⟨k', v, hmem, value', htext, rfl, rfl⟩
    exact ⟨v, hmem, htext⟩
  · rintro ⟨v, hmem, htext⟩
    exact ⟨k, v, hmem, value, htext, rfl, rfl⟩

theorem pairs_keys (text : Value → Option Bytes) (mp : List (Bytes × Value)) :
    ((pairs text mp).map Prod.fst).Sublist (mp.map Prod.fst) := by
  induction mp with
  | nil => exact .slnil
  | cons p mp ih =>
      obtain ⟨k, v⟩ := p
      cases htext : text v with
      | none =>
          have hskip : pairs text ((k, v) :: mp) = pairs text mp := by simp [pairs, htext]
          rw [hskip]
          exact ih.cons k
      | some value =>
          have htake : pairs text ((k, v) :: mp) = (k, value) :: pairs text mp := by
            simp [pairs, htext]
          rw [htake]
          exact ih.cons_cons k

theorem length_pairs_le (text : Value → Option Bytes) (mp : List (Bytes × Value)) :
    (pairs text mp).length ≤ mp.length := List.length_filterMap_le _ _

/-- What the command for a map of values does to a hash. -/
theorem putFields_fillArgs (text : Value → Option Bytes) (mp : List (Bytes × Value)) (fields : Hash) :
    Db.putFields fields (fillArgs text mp) =
      if mp.length - (pairs text mp).length = 0 then putPairs fields (pairs text mp)
      else Function.update (putPairs fields (pairs text mp)) [] (some []) := by
  rw [fillArgs, putFields_pairs, ← Nat.sub_mul, putFields_replicate]

theorem length_fillArgs (text : Value → Option Bytes) (mp : List (Bytes × Value)) :
    (fillArgs text mp).length = mp.length * 2 := by
  have hle := length_pairs_le text mp
  have hpairs (l : List (Bytes × Bytes)) :
      (l.flatMap fun (k, value) => [k, value]).length = l.length * 2 := by
    induction l with
    | nil => rfl
    | cons p l ih =>
        rw [List.flatMap_cons, List.length_append, ih, List.length_cons]
        simp only [List.length_cons, List.length_nil]
        omega
  rw [fillArgs, List.length_append, List.length_replicate, hpairs]
  omega

def Db.hashAt (db : Db) (key : Bytes) : Option Hash :=
  match db key with
  | none => some fun _ => none
  | some (.hash fields) => some fields
  | some _ => none

/-- `HMSET` with at least one field. -/
theorem hmset_fillArgs {text : Value → Option Bytes} {mp : List (Bytes × Value)} (h : mp ≠ []) (db : Db)
    (key : Bytes) : db.hmset (key :: fillArgs text mp) =
      match db.hashAt key with
      | some fields => (.status (bytes "OK"),
          Function.update db key (some (.hash (Db.putFields fields (fillArgs text mp)))))
      | none => (wrongType, db) := by
  have hlen := length_fillArgs text mp
  have hpos : 0 < mp.length := List.length_pos_iff.mpr h
  rw [Db.hmset, if_neg (by omega), if_neg (by omega), Db.hashAt]
  rcases db key with _ | item
  · rfl
  · cases item <;> rfl

def JobEntity.Writes (job : JobEntity) (field value : Bytes) : Prop :=
  ∃ v, (field, some v) ∈ structsFields job ∧ addText v = some value

def merged (lib : Library) (job : JobEntity) (fields : Hash) : Hash :=
  putPairs fields (pairs addText (lib.order (structsMap job)))

section

variable {lib : Library} {job : JobEntity} {field value : Bytes} {fields : Hash}

theorem structsFields_nodup (job : JobEntity) : ((structsFields job).map Prod.fst).Nodup := by
  have hkeys : (structsFields job).map Prod.fst = [Field.name, Field.jobId, Field.cron,
      Field.description, Field.lastExecTime, Field.execAt, Field.execType, Field.state,
      Field.script] := rfl
  rw [hkeys]
  decide

theorem mem_structsMap {v : Value} :
    (field, v) ∈ structsMap job ↔ (field, some v) ∈ structsFields job := by
  simp only [structsMap, List.mem_filterMap, Prod.exists, Option.map_eq_some_iff, Prod.mk.injEq]
  constructor
  · rintro ⟨k, o, hmem, v', rfl, rfl, rfl⟩
    exact hmem
  · intro hmem
    exact ⟨field, some v, hmem, v, rfl, rfl, rfl⟩

theorem structsMap_keys (job : JobEntity) :
    ((structsMap job).map Prod.fst).Sublist ((structsFields job).map Prod.fst) := by
  rw [structsMap]
  induction structsFields job with
  | nil => exact .slnil
  | cons p l ih =>
      obtain ⟨k, _ | v⟩ := p
      · exact ih.cons k
      · exact ih.cons_cons k

theorem order_keys_nodup {l : List (Bytes × Value)} (h : (l.map Prod.fst).Nodup) :
    ((lib.order l).map Prod.fst).Nodup :=
  ((lib.order_perm l).map Prod.fst).nodup_iff.mpr h

theorem addText_omitEmpty {s : Bytes} {v : Value} (h : omitEmpty s = some v) : (addText v).isSome := by
  rw [omitEmpty] at h
  split at h
  · cases h
  · rw [← Option.some.inj h]
    rfl

/-- `AddJob` ignores no field of a job. -/
theorem addText_structsMap {v : Value} (h : (field, v) ∈ structsMap job) : (addText v).isSome := by
  have hall : ∀ p ∈ structsFields job, ∀ v, p.2 = some v → (addText v).isSome := by
    simp only [structsFields, List.forall_mem_cons, List.not_mem_nil, false_implies, implies_true,
      and_true, Option.map_eq_some_iff, Option.some.injEq, forall_exists_index, and_imp]
    refine ⟨fun _ => addText_omitEmpty, fun _ => addText_omitEmpty, fun _ => addText_omitEmpty,
      fun _ => addText_omitEmpty, ?_, ?_, ?_, ?_, fun _ => addText_omitEmpty⟩
    · rintro v t - rfl
      rfl
    · rintro v t - rfl
      rfl
    · rintro v rfl
      rfl
    · rintro v rfl
      rfl
  exact hall _ (mem_structsMap.mp h) v rfl

theorem length_pairs_eq {text : Value → Option Bytes} {mp : List (Bytes × Value)}
    (h : ∀ p ∈ mp, (text p.2).isSome) : (pairs text mp).length = mp.length := by
  induction mp with
  | nil => rfl
  | cons p mp ih =>
      obtain ⟨k, v⟩ := p
      obtain ⟨value, hvalue⟩ := Option.isSome_iff_exists.mp (h _ List.mem_cons_self)
      have htake : pairs text ((k, v) :: mp) = (k, value) :: pairs text mp := by
        simp only [pairs, List.filterMap_cons, hvalue, Option.map_some]
      rw [htake, List.length_cons, List.length_cons, ih fun p hp => h p (List.mem_cons_of_mem _ hp)]

theorem mem_pairs_structsMap : (field, value) ∈ pairs addText (lib.order (structsMap job)) ↔
    job.Writes field value := by
  rw [mem_pairs]
  simp only [(lib.order_perm (structsMap job)).mem_iff, mem_structsMap]
  rfl

theorem merged_of_writes (h : job.Writes field value) : merged lib job fields field = some value := by
  refine putPairs_of_mem ?_ (mem_pairs_structsMap.mpr h)
  refine (pairs_keys _ _).nodup (order_keys_nodup ?_)
  exact (structsMap_keys job).nodup (structsFields_nodup job)

theorem merged_of_not_writes (h : ∀ value, ¬ job.Writes field value) :
    merged lib job fields field = fields field := by
  apply putPairs_of_not_mem
  intro hmem
  obtain ⟨⟨k, value⟩, hpair, rfl⟩ := List.mem_map.mp hmem
  exact h value (mem_pairs_structsMap.mp hpair)

theorem not_writes (h : (field, none) ∈ structsFields job) (value : Bytes) : ¬ job.Writes field value := by
  rintro ⟨v, hmem, -⟩
  have hsame := List.inj_on_of_nodup_map (structsFields_nodup job) h hmem rfl
  simp at hsame

theorem writes_omitEmpty {s : Bytes} (h : (field, omitEmpty s) ∈ structsFields job) (hs : s ≠ []) :
    job.Writes field s := by
  rw [omitEmpty, if_neg hs] at h
  exact ⟨_, h, rfl⟩

/-- A text reads back, and an empty one that is left out does so too. -/
theorem merged_omitEmpty {s : Bytes} (h : (field, omitEmpty s) ∈ structsFields job) :
    (merged lib job (fun _ => none) field).getD [] = s := by
  by_cases hs : s = []
  · rw [omitEmpty, if_pos hs] at h
    rw [merged_of_not_writes (not_writes h), hs]
    rfl
  · rw [merged_of_writes (writes_omitEmpty h hs)]
    rfl

end

def JobEntity.id (lib : Library) (job : JobEntity) : Bytes :=
  if job.jobId = [] then lib.newString else job.jobId

def JobEntity.named (lib : Library) (job : JobEntity) : JobEntity := { job with jobId := job.id lib }

theorem structsMap_ne_nil (job : JobEntity) : structsMap job ≠ [] := by
  have hmem : (Field.state, Value.uint8 job.state) ∈ structsMap job :=
    mem_structsMap.mpr (by simp [structsFields])
  exact List.ne_nil_of_mem hmem

/-- What `AddJob` does, by what the key of the job and the set of the jobs hold. -/
theorem addJob_eq (lib : Library) (db : Db) (job : JobEntity) : addJob lib db job =
    match db.hashAt (job.id lib) with
    | none => ((job.id lib, some addFailed), db)
    | some fields =>
        match Db.sadd (Function.update db (job.id lib)
            (some (.hash (merged lib (job.named lib) fields)))) jobKeysSet (job.id lib) with
        | (.int 1, db) => ((job.id lib, none), db)
        | (_, db) => ((job.id lib, some addFailed), db) := by
  have hne : lib.order (structsMap (job.named lib)) ≠ [] := by
    intro hnil
    refine structsMap_ne_nil (job.named lib) (List.length_eq_zero_iff.mp ?_)
    rw [← (lib.order_perm (structsMap (job.named lib))).length_eq, hnil]
    rfl
  have hfill (fields : Hash) : Db.putFields fields (fillArgs addText
      (lib.order (structsMap (job.named lib)))) = merged lib (job.named lib) fields := by
    rw [putFields_fillArgs, if_pos]
    · rfl
    · rw [length_pairs_eq, Nat.sub_self]
      rintro ⟨k, v⟩ hmem
      exact addText_structsMap ((lib.order_perm (structsMap (job.named lib))).mem_iff.mp hmem)
  have haddJob : addJob lib db job =
      let r := db.hmset (job.id lib :: fillArgs addText (lib.order (structsMap (job.named lib))))
      if isOKReply r.1 then
        match Db.sadd r.2 jobKeysSet (job.id lib) with
        | (.int 1, db) => ((job.id lib, none), db)
        | (_, db) => ((job.id lib, some addFailed), db)
      else ((job.id lib, some addFailed), r.2) := rfl
  rw [haddJob, hmset_fillArgs hne]
  cases hhash : db.hashAt (job.id lib) with
  | none => rfl
  | some fields =>
      simp only [hfill]
      rfl

/-- What is read of a hash. -/
theorem getJobInfo_hash {db : Db} {jobId : Bytes} {hash : Hash} (h : db jobId = some (.hash hash)) :
    getJobInfo db jobId = .ok {
      jobId := jobId
      name := (hash Field.name).getD []
      cron := (hash Field.cron).getD []
      description := (hash Field.description).getD []
      lastExecTime := readTime ((hash Field.lastExecTime).getD [])
      execAt := readTime ((hash Field.execAt).getD [])
      state := readUint8 ((hash Field.state).getD [])
      execType := readUint8 ((hash Field.execType).getD [])
      script := [] } := by
  have hreply : db.hmget jobId infoFields =
      .multiBulk (infoFields.map fun field => some ((hash field).getD [])) := by
    rw [Db.hmget, h]
    rfl
  rw [getJobInfo, hreply]
  rfl

theorem toText_eq (t : Time) : ∃ rest, t.toText =
    appendInt t.wall.year 4 ++ 45 :: (pad 2 t.wall.month ++ 45 :: (pad 2 t.wall.day ++ 32 :: rest)) := by
  refine ⟨pad 2 t.wall.hour ++ 58 :: (pad 2 t.wall.minute ++ 58 :: pad 2 t.wall.second), ?_⟩
  have htokens : tokens (bytes "2006-01-02 15:04:05") = [.std .longYear, .literal 45,
      .std (.month true), .literal 45, .std (.day true), .spaces 1, .std .hour, .literal 58,
      .std (.minute true), .literal 58, .std (.second true)] := rfl
  simp [Time.toText, format, htokens, formatToken, formatStd, width]

/-- With this layout no time that `ToString` writes parses. The year is taken for a day and a
month, and then its fifth digit, the month and the day would have to be `7-08-` and an hour. -/
theorem parse_toText (t : Time) : parse (bytes "2017-08-30 16:40:41") t.toText = none := by
  have htokens : tokens (bytes "2017-08-30 16:40:41") = [.std (.day false), .std (.month true),
      .literal 55, .literal 45, .literal 48, .literal 56, .literal 45, .std (.hour12 false),
      .literal 48, .spaces 1, .std (.month false), .literal 54, .literal 58, .std (.minute false),
      .literal 48, .literal 58, .std (.minute false), .std (.month false)] := rfl
  suffices hnone : parseTokens (tokens (bytes "2017-08-30 16:40:41")) t.toText .zero = none by
    rw [parse, hnone]
    rfl
  obtain ⟨rest, htext⟩ := toText_eq t
  rw [htokens, htext]
  have hmonth := t.wall.month_le
  have hday := t.wall.day_le
  obtain ⟨m₁, m₂, hm, hm₁, hm₂⟩ := pad_two (show t.wall.month < 100 by omega)
  obtain ⟨d₁, d₂, hd, hd₁, hd₂⟩ := pad_two (show t.wall.day < 100 by omega)
  rw [hm, hd]
  by_cases hneg : t.wall.year < 0
  · rw [appendInt, if_pos hneg]
    exact parseTokens_not_digit (by decide) (by simp) (by simp)
  · rw [appendInt, if_neg hneg]
    have hlen := le_length_pad 4 t.wall.year.natAbs
    have hdigits : ∀ b ∈ pad 4 t.wall.year.natAbs, isDigit b := pad_digits
    generalize pad 4 t.wall.year.natAbs = year at hlen hdigits
    obtain ⟨y₁, y₂, y₃, y₄, year, rfl⟩ : ∃ y₁ y₂ y₃ y₄ l, year = y₁ :: y₂ :: y₃ :: y₄ :: l := by
      rcases year with _ | ⟨y₁, _ | ⟨y₂, _ | ⟨y₃, _ | ⟨y₄, l⟩⟩⟩⟩
      · simp at hlen
      · simp at hlen
      · simp at hlen
      · simp at hlen
      · exact ⟨y₁, y₂, y₃, y₄, l, rfl⟩
    simp only [List.mem_cons, forall_eq_or_imp] at hdigits
    obtain ⟨hy₁, hy₂, hy₃, hy₄, hyear⟩ := hdigits
    simp only [List.cons_append, List.nil_append]
    have hlit {b c : UInt8} {value : Text} {ts : List Token} {f : Fields} (hne : c ≠ b) :
        parseTokens (.literal b :: ts) (c :: value) f = none :=
      parseTokens_literal fun he => hne (Option.some.inj he)
    rcases parseTokens_digits (s := .day false) hy₁ hy₂ (by simp) (by simp) with h | ⟨f, h⟩
    · exact h
    rw [h]
    rcases parseTokens_digits (s := .month true) hy₃ hy₄ (by simp) (by simp) with h | ⟨f, h⟩
    · exact h
    rw [h]
    have hstep {b : UInt8} {value : Text} {ts : List Token} {f : Fields} :
        parseTokens (.literal b :: ts) (b :: value) f = parseTokens ts value f := if_pos rfl
    rcases year with _ | ⟨y₅, _ | ⟨y₆, year⟩⟩
    · exact hlit (by decide)
    · by_cases h₅ : y₅ = 55
      · subst h₅
        simp only [List.cons_append, List.nil_append]
        rw [hstep, hstep]
        by_cases h₁ : m₁ = 48
        · subst h₁
          rw [hstep]
          by_cases h₂ : m₂ = 56
          · subst h₂
            rw [hstep, hstep]
            rcases parseTokens_digits (s := .hour12 false) hd₁ hd₂ (by simp) (by simp) with h | ⟨f, h⟩
            · exact h
            rw [h]
            exact hlit (by decide)
          · exact hlit h₂
        · exact hlit h₁
      · exact hlit h₅
    · by_cases h₅ : y₅ = 55
      · subst h₅
        simp only [List.cons_append]
        rw [hstep]
        apply hlit
        intro h₆
        have hdigit := hyear y₆ (by simp)
        rw [h₆] at hdigit
        exact absurd hdigit (by decide)
      · exact hlit h₅

/-- What is loaded of a time is the zero time. -/
theorem readTime_toText (t : Time) : readTime t.toText = some .zero := by
  have hne : t.toText ≠ [] := by
    obtain ⟨rest, htext⟩ := toText_eq t
    rw [htext]
    simp
  rw [readTime, if_neg hne, parse_toText]

theorem readUint8_formatNat (n : UInt8) : readUint8 (formatNat n.toNat) = n := by
  rw [readUint8, parseUint_formatNat, if_pos n.toNat_lt]
  exact UInt8.ofNat_toNat

theorem merged_uint8 {lib : Library} {job : JobEntity} {fields : Hash} {field : Bytes} {n : UInt8}
    (h : (field, some (.uint8 n)) ∈ structsFields job) :
    readUint8 ((merged lib job fields field).getD []) = n := by
  rw [merged_of_writes ⟨_, h, rfl⟩]
  exact readUint8_formatNat n

end Traitor.LocalDb
