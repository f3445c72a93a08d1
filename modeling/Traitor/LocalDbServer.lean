import Traitor.LocalDb
import Traitor.Service
import Traitor.SetUndo

namespace Traitor.LocalDb

open Database (Slice text Env World Entity HashValue Exec Dict CommandName command cmdTable validateArity)
open Codec Protocol Service Lib.Effects

variable {σ : Type} {env : Env σ} {lib : Library} {w w' : World σ} {db : Db} {key : Bytes}

/-- What the client of the database sees of a value. -/
inductive Shown : Option (Entity σ) → Option Item → Prop
  | absent : Shown none none
  | hash (d : Dict HashValue) (fields : Hash)
      (h : ∀ f, d.lookup f = (fields f).map fun b => .slice (some b)) :
      Shown (some (.hash d)) (some (.hash fields))
  | set (s : Finset Bytes) : Shown (some (.set s)) (some (.set s))
  | other (e : Entity σ) (hhash : e.asHash = none) (hset : e.asSet = none) :
      Shown (some e) (some .other)

theorem Shown.isSome {e : Option (Entity σ)} {item : Option Item} (h : Shown e item) :
    e.isSome = item.isSome := by
  cases h <;> rfl

def Shows (w : World σ) (db : Db) : Prop :=
  ∀ key, (w.db.slot key).ttl = none ∧ Shown (w.db.slot key).data (db key)

theorem shows_empty : Shows (.empty : World σ) fun _ => none := fun _ => ⟨rfl, .absent⟩

/-- The requests of the client, but for the one that puts a string under a field. -/
inductive Request
  | hmset (args : List Bytes)
  | hmget (key : Bytes) (fields : List Bytes)
  | hget (key field : Bytes)
  | sadd (key member : Bytes)
  | srem (key member : Bytes)
  | smembers (key : Bytes)
  | del (key : Bytes)

namespace Request

def name : Request → Bytes
  | .hmset _ => bytes "HMSET"
  | .hmget _ _ => bytes "HMGET"
  | .hget _ _ => bytes "HGET"
  | .sadd _ _ => bytes "SADD"
  | .srem _ _ => bytes "SREM"
  | .smembers _ => bytes "SMEMBERS"
  | .del _ => bytes "DEL"

def args : Request → List Bytes
  | .hmset args => args
  | .hmget key fields => key :: fields
  | .hget key field => [key, field]
  | .sadd key member => [key, member]
  | .srem key member => [key, member]
  | .smembers key => [key]
  | .del key => [key]

def line (r : Request) : List Bytes := r.name :: r.args

def command : Request → CommandName
  | .hmset _ => .hMSet
  | .hmget _ _ => .hMGet
  | .hget _ _ => .hGet
  | .sadd _ _ => .sAdd
  | .srem _ _ => .sRem
  | .smembers _ => .sMembers
  | .del _ => .del

theorem cmdTable_name (r : Request) : cmdTable (Database.toLower (text (some r.name))) = some r.command := by
  have hnames : cmdTable (Database.toLower (bytes "HMSET")) = some .hMSet ∧
      cmdTable (Database.toLower (bytes "HMGET")) = some .hMGet ∧
      cmdTable (Database.toLower (bytes "HGET")) = some .hGet ∧
      cmdTable (Database.toLower (bytes "SADD")) = some .sAdd ∧
      cmdTable (Database.toLower (bytes "SREM")) = some .sRem ∧
      cmdTable (Database.toLower (bytes "SMEMBERS")) = some .sMembers ∧
      cmdTable (Database.toLower (bytes "DEL")) = some .del := by
    decide +kernel
  obtain ⟨hmset, hmget, hget, hsadd, hsrem, hsmembers, hdel⟩ := hnames
  cases r with
  | hmset args => exact hmset
  | hmget key fields => exact hmget
  | hget key field => exact hget
  | sadd key member => exact hsadd
  | srem key member => exact hsrem
  | smembers key => exact hsmembers
  | del key => exact hdel

def Asks : Request → Prop
  | .hmget _ fields => fields ≠ []
  | _ => True

def apply (lib : Library) (db : Db) : Request → Reply × Db
  | .hmset args => db.hmset args
  | .hmget key fields => (db.hmget key fields, db)
  | .hget key field => (db.hget key field, db)
  | .sadd key member => db.sadd key member
  | .srem key member => db.srem key member
  | .smembers key => (db.smembers lib key, db)
  | .del key => db.del key

end Request

/-- An argument that comes through as it is. -/
def Tame (b : Bytes) : Prop := ¬ Dollar b ∧ b.length + 2 < 2 ^ 63

def Item.Tame (n : Nat) : Item → Prop
  | .hash fields => ∀ f b, fields f = some b → LocalDb.Tame b
  | .set members => (∀ b ∈ members, LocalDb.Tame b) ∧ members.card ≤ n
  | .other => True

def Db.Tame (n : Nat) (db : Db) : Prop := ∀ key item, db key = some item → item.Tame n

/-- The answer comes through as the client expects it, and the database then holds what the
client expects. -/
def Answers (reply : Reply) (w' : World σ) (expected : Reply × Db) : Prop :=
  Intact reply ∧ received reply = expected.1 ∧ Shows w' expected.2

theorem Answers.of_wp {m : Exec σ Reply} {expected : Reply × Db}
    (h : wp m (fun r w' => ∃ reply, r = some reply ∧ Answers reply w' expected) w) :
    ∃ reply w', Runs m w reply w' ∧ Answers reply w' expected := by
  obtain ⟨reply, hvalue, hanswers⟩ := (wp_iff m _ w).mp h
  exact ⟨reply, _, .of_value hvalue, hanswers⟩

section

variable [LinearOrder σ] [Inhabited σ]

theorem exec_answers {name : Slice} {args : List Slice} {c : CommandName} {expected : Reply × Db}
    (hc : cmdTable (Database.toLower (text name)) = some c)
    (harity : validateArity (command env c).arity (name :: args) = true)
    (h : ∀ versionMap, ∃ reply w', Runs ((command env c).executor args) (w.versions versionMap) reply w' ∧
      Answers reply w' expected) :
    Answers (Database.exec env (name :: args) w).1 (Database.exec env (name :: args) w).2 expected := by
  have hwp : wp (Database.execNormalCommand env (name :: args))
      (fun r w' => Answers (r.getD .unknownErr) w' expected) w := by
    simp only [Database.execNormalCommand, Database.findCommand, hc, harity, if_true, wp_bind, wp_pure]
    apply wp_mono (Database.wp_addVersion _ w)
    rintro r w' ⟨rfl, versionMap, rfl⟩
    obtain ⟨reply, w'', hrun, hanswers⟩ := h versionMap
    rw [wp_iff, hrun.value, hrun.final]
    exact hanswers
  exact (wp_iff _ _ w).mp hwp

theorem exec_answers_badArity {name : Slice} {args : List Slice} {c : CommandName} {expected : Reply × Db}
    (hc : cmdTable (Database.toLower (text name)) = some c)
    (harity : validateArity (command env c).arity (name :: args) = false)
    (h : Answers (.argNumErr (Database.toLower (text name))) w expected) :
    Answers (Database.exec env (name :: args) w).1 (Database.exec env (name :: args) w).2 expected := by
  have hwp : wp (Database.execNormalCommand env (name :: args))
      (fun r w' => Answers (r.getD .unknownErr) w' expected) w := by
    simp only [Database.execNormalCommand, Database.findCommand, hc, harity, wp_bind, wp_pure,
      Bool.false_eq_true, if_false]
    exact h
  exact (wp_iff _ _ w).mp hwp

end

theorem Shows.versions (h : Shows w db) (versionMap : Bytes → UInt32) : Shows (w.versions versionMap) db :=
  h

theorem Shows.aof (h : Shows w db) (lines : List Database.CmdLine) : Shows { w with aof := lines } db := h

def found {α : Type} (view : Entity σ → Option α) : Option (Entity σ) → Except Reply (Option α)
  | none => .ok none
  | some e =>
      match view e with
      | none => .error .wrongTypeErr
      | some a => .ok (some a)

theorem Shows.fresh (h : Shows w db) (env : Env σ) (key : Bytes) : w.db.isExpired env key = false := by
  rw [Database.DB.isExpired_slot, Database.Slot.isExpired, (h key).1]
  rfl

theorem Shows.live (h : Shows w db) (env : Env σ) (key : Bytes) :
    w.db.live env key = (w.db.slot key).data := by
  rw [Database.DB.live, h.fresh]
  rfl

theorem Shows.getAs {α : Type} (h : Shows w db) (env : Env σ) (view : Entity σ → Option α) (key : Bytes) :
    Runs (Database.getAs env view key) w (found view (w.db.slot key).data) w := by
  have hview : w.db.view env view key = found view (w.db.slot key).data := by
    rw [Database.DB.view, h.live]
    rfl
  exact hview ▸ Database.getAs_runs (h.fresh env key) view

theorem Shows.put {e : Entity σ} {item : Item} (h : Shows w db) (hshown : Shown (some e) (some item))
    (key : Bytes) :
    Shows { w with db := w.db.put key e } (Function.update db key (some item)) := by
  intro k
  rw [Database.DB.slot_put]
  by_cases hk : k = key
  · subst hk
    rw [if_pos rfl, Function.update_self]
    exact ⟨(h k).1, hshown⟩
  · rw [if_neg hk, Function.update_of_ne hk]
    exact h k

theorem Shows.remove (h : Shows w db) (key : Bytes) :
    Shows { w with db := w.db.remove key } (Function.update db key none) := by
  intro k
  rw [Database.DB.slot_remove]
  by_cases hk : k = key
  · subst hk
    rw [if_pos rfl, Function.update_self]
    exact ⟨rfl, .absent⟩
  · rw [if_neg hk, Function.update_of_ne hk]
    exact h k

theorem putFields_shown {d : Dict HashValue} {fields : Hash}
    (h : ∀ f, d.lookup f = (fields f).map fun b => .slice (some b)) (args : List Bytes) (f : Bytes) :
    (Database.putFields d (Database.fieldPairs (args.map some))).lookup f =
      (Db.putFields fields args f).map fun b => .slice (some b) := by
  induction args using List.twoStepInduction generalizing d fields with
  | nil => exact h f
  | singleton a => exact h f
  | cons_cons field value args ih =>
      have hcons : Database.putFields d (Database.fieldPairs ((field :: value :: args).map some)) =
          Database.putFields (d.insert field (.slice (some value)))
            (Database.fieldPairs (args.map some)) := rfl
      rw [hcons, Db.putFields, ih]
      intro f'
      by_cases hf : f' = field
      · subst hf
        simp
      · simp [hf, h f']

inductive DictAt (env : Env σ) (w : World σ) (key : Bytes) : Option Item → Prop
  | absent (hrun : Runs (Database.getAsDict env key) w (.ok none) w) : DictAt env w key none
  | hash (d : Dict HashValue) (fields : Hash) (hrun : Runs (Database.getAsDict env key) w (.ok (some d)) w)
      (hd : ∀ f, d.lookup f = (fields f).map fun b => .slice (some b)) :
      DictAt env w key (some (.hash fields))
  | set (s : Finset Bytes) (hrun : Runs (Database.getAsDict env key) w (.error .wrongTypeErr) w) :
      DictAt env w key (some (.set s))
  | other (hrun : Runs (Database.getAsDict env key) w (.error .wrongTypeErr) w) :
      DictAt env w key (some .other)

inductive SetAt (env : Env σ) (w : World σ) (key : Bytes) : Option Item → Prop
  | absent (hrun : Runs (Database.getAsSet env key) w (.ok none) w) : SetAt env w key none
  | set (s : Finset Bytes) (hrun : Runs (Database.getAsSet env key) w (.ok (some s)) w) :
      SetAt env w key (some (.set s))
  | hash (fields : Hash) (hrun : Runs (Database.getAsSet env key) w (.error .wrongTypeErr) w) :
      SetAt env w key (some (.hash fields))
  | other (hrun : Runs (Database.getAsSet env key) w (.error .wrongTypeErr) w) :
      SetAt env w key (some .other)

section

variable (h : Shows w db)

include h

theorem Shows.dictAt (env : Env σ) (key : Bytes) : DictAt env w key (db key) := by
  have hget := h.getAs env Entity.asHash key
  have hshown := (h key).2
  generalize (w.db.slot key).data = data at hget hshown
  generalize db key = item at hshown
  cases hshown with
  | absent => exact .absent hget
  | hash d fields hd => exact .hash d fields hget hd
  | set s => exact .set s hget
  | other e hhash hset =>
      rw [found, hhash] at hget
      exact .other hget

theorem Shows.setAt (env : Env σ) (key : Bytes) : SetAt env w key (db key) := by
  have hget := h.getAs env Entity.asSet key
  have hshown := (h key).2
  generalize (w.db.slot key).data = data at hget hshown
  generalize db key = item at hshown
  cases hshown with
  | absent => exact .absent hget
  | hash d fields hd => exact .hash fields hget
  | set s => exact .set s hget
  | other e hhash hset =>
      rw [found, hset] at hget
      exact .other hget

/-- A hash that is there or made anew takes the pairs. -/
theorem Shows.putFields {d : Dict HashValue} {fields : Hash}
    (hd : ∀ f, d.lookup f = (fields f).map fun b => .slice (some b)) (key : Bytes) (args : List Bytes)
    (lines : List Database.CmdLine) :
    Shows ⟨w.db.put key (.hash (Database.putFields d (Database.fieldPairs (args.map some)))), lines⟩
      (Function.update db key (some (.hash (Db.putFields fields args)))) :=
  (h.put (.hash _ _ (putFields_shown hd args)) key).aof lines

theorem hmset_answers (key : Bytes) {args : List Bytes} (hlen : 2 ≤ args.length) :
    ∃ reply w', Runs (Database.execHMSet env ((key :: args).map some)) w reply w' ∧
      Answers reply w' (db.hmset (key :: args)) := by
  rw [List.map_cons, Database.execHMSet, Db.hmset, if_neg (show ¬ args.length < 2 by omega)]
  by_cases hodd : args.length % 2 = 1
  · rw [if_pos hodd, if_pos (by simp; omega)]
    exact ⟨.syntaxErr, w, .pure _ w, trivial, rfl, h⟩
  · rw [if_neg hodd, if_neg (by simp; omega)]
    have hat := h.dictAt env key
    generalize db key = item at hat
    cases hat with
    | absent hrun =>
        have hempty : ∀ f, (∅ : Dict HashValue).lookup f =
            ((fun _ => none : Hash) f).map fun b => .slice (some b) := fun f => by simp
        have hput := h.put (.hash (σ := σ) ∅ (fun _ => none) hempty) key
        have hputs := hput.putFields hempty key args
          (w.aof ++ [Database.cmdLine3 "hmset" (some key :: args.map some)])
        rw [Function.update_idem] at hputs
        refine ⟨.ok, _, .bind (.bind hrun (.bind (Database.putEntity_runs _ _ w) (.pure _ _)))
          (.bind (Database.putEntity_runs _ _ _) (.bind (Database.addAof_runs _ _) (.pure _ _))),
          trivial, rfl, hputs⟩
    | hash d fields hrun hd =>
        refine ⟨.ok, _, .bind (.bind hrun (.pure _ _))
          (.bind (Database.putEntity_runs _ _ _) (.bind (Database.addAof_runs _ _) (.pure _ _))),
          trivial, rfl, h.putFields hd key args _⟩
    | set s hrun => exact ⟨.wrongTypeErr, w, .bind (.bind hrun (.pure _ _)) (.pure _ _), trivial, rfl, h⟩
    | other hrun => exact ⟨.wrongTypeErr, w, .bind (.bind hrun (.pure _ _)) (.pure _ _), trivial, rfl, h⟩

omit h in
theorem tame_nil : Tame [] := ⟨by simp [Dollar], by decide⟩

omit h in
/-- An array comes through as the client reads it. -/
theorem array_answers (h : Shows w db) {slices : List Slice} (hlen : slices.length < 2 ^ 32)
    (htame : ∀ b, some b ∈ slices → Tame b) : Answers (.multiBulk slices) w (readArray slices, db) := by
  refine ⟨⟨by simpa using hlen, fun arg harg => ?_⟩, rfl, h⟩
  obtain ⟨slice, hmem, rfl⟩ := List.mem_map.mp harg
  cases slice with
  | none => exact tame_nil
  | some b => exact htame b hmem

theorem hmget_answers {n : Nat} (htame : db.Tame n) (key : Bytes) {fields : List Bytes}
    (hlen : fields.length < 2 ^ 32) :
    ∃ reply w', Runs (Database.execHMGet env ((key :: fields).map some)) w reply w' ∧
      Answers reply w' (db.hmget key fields, db) := by
  have hat := h.dictAt env key
  have htame := htame key
  rw [List.map_cons, Database.execHMGet, Db.hmget]
  generalize db key = item at hat htame
  cases hat with
  | absent hrun =>
      refine ⟨_, w, .bind hrun (.pure _ _), ?_⟩
      rw [List.map_map]
      exact array_answers h (by simpa using hlen) (by simp)
  | hash d hash hrun hd =>
      refine ⟨_, w, .bind hrun (.pure _ _), ?_⟩
      have hvalues : (fields.map some).map (fun field => (d.lookup (text field)).bind HashValue.bytes) =
          fields.map hash := by
        rw [List.map_map]
        refine List.map_congr_left fun field _ => ?_
        have hfield : (d.lookup field).bind HashValue.bytes = hash field := by
          rw [hd]
          cases hash field <;> rfl
        exact hfield
      rw [hvalues]
      refine array_answers h (by simpa using hlen) fun b hb => ?_
      obtain ⟨field, -, hfield⟩ := List.mem_map.mp hb
      exact htame _ rfl field b hfield
  | set s hrun => exact ⟨.wrongTypeErr, w, .bind hrun (.pure _ _), trivial, rfl, h⟩
  | other hrun => exact ⟨.wrongTypeErr, w, .bind hrun (.pure _ _), trivial, rfl, h⟩

theorem hget_answers {n : Nat} (htame : db.Tame n) (key field : Bytes) :
    ∃ reply w', Runs (Database.execHGet env [some key, some field]) w reply w' ∧
      Answers reply w' (db.hget key field, db) := by
  have hat := h.dictAt env key
  have htame := htame key
  rw [Database.execHGet, Db.hget]
  generalize db key = item at hat htame
  cases hat with
  | absent hrun => exact ⟨.nullBulk, w, .bind hrun (.pure _ _), trivial, rfl, h⟩
  | hash d hash hrun hd =>
      have hfield := hd field
      cases hvalue : hash field with
      | none =>
          rw [hvalue] at hfield
          refine ⟨.nullBulk, w, .bind hrun ?_, trivial, ?_, h⟩
          · dsimp only [text, Option.getD_some]
            rw [hfield]
            exact .pure _ w
          · dsimp only
            rw [hvalue]
            rfl
      | some value =>
          rw [hvalue] at hfield
          refine ⟨.bulk (some value), w, .bind hrun ?_, ?_, ?_, h⟩
          · dsimp only [text, Option.getD_some]
            rw [hfield]
            exact .pure _ w
          · rintro b ⟨⟩
            exact htame _ rfl field value hvalue
          · dsimp only
            rw [hvalue]
            rfl
  | set s hrun => exact ⟨.wrongTypeErr, w, .bind hrun (.pure _ _), trivial, rfl, h⟩
  | other hrun => exact ⟨.wrongTypeErr, w, .bind hrun (.pure _ _), trivial, rfl, h⟩

omit h in
/-- The number of members that are new. -/
theorem intact_added (p : Prop) [Decidable p] : Intact (.int (if p then 0 else 1)) := by
  by_cases hp : p <;> simp [Intact, hp]

theorem sadd_answers (key member : Bytes) :
    ∃ reply w', Runs (Database.execSAdd env [some key, some member]) w reply w' ∧
      Answers reply w' (db.sadd key member) := by
  have hat := h.setAt env key
  rw [Database.execSAdd, Db.sadd]
  generalize db key = item at hat
  cases hat with
  | absent hrun =>
      have hput := (h.put (.set (σ := σ) ∅) key).put (.set {member}) key
      rw [Function.update_idem] at hput
      refine ⟨.int 1, _, .bind (.bind hrun (.bind (Database.putEntity_runs _ _ w) (.pure _ _)))
        (.bind (Database.putEntity_runs _ _ _) (.bind (Database.addAof_runs _ _) (.pure _ _))),
        ⟨by decide, by decide⟩, rfl, hput⟩
  | set s hrun =>
      have hcount : (Database.addMembers s ([some member].map text)).2 =
          if member ∈ s then 0 else 1 := Int.add_zero _
      refine ⟨.int (Database.addMembers s ([some member].map text)).2, _, .bind (.bind hrun (.pure _ _))
        (.bind (Database.putEntity_runs _ _ _) (.bind (Database.addAof_runs _ _) (.pure _ _))), ?_, ?_,
        h.put (.set (insert member s)) key⟩
      · rw [hcount]
        exact intact_added _
      · rw [hcount]
        rfl
  | hash fields hrun => exact ⟨.wrongTypeErr, w, .bind (.bind hrun (.pure _ _)) (.pure _ _), trivial, rfl, h⟩
  | other hrun => exact ⟨.wrongTypeErr, w, .bind (.bind hrun (.pure _ _)) (.pure _ _), trivial, rfl, h⟩

theorem srem_answers (key member : Bytes) :
    ∃ reply w', Runs (Database.execSRem env [some key, some member]) w reply w' ∧
      Answers reply w' (db.srem key member) := by
  have hat := h.setAt env key
  rw [Database.execSRem, Db.srem]
  generalize db key = item at hat
  cases hat with
  | absent hrun => exact ⟨.int 0, w, .bind hrun (.pure _ _), ⟨by decide, by decide⟩, rfl, h⟩
  | set s hrun =>
      have hcount : (Database.removeMembers s ([some member].map text)).2 =
          if member ∈ s then 1 else 0 := Int.add_zero _
      have hleft : (Database.removeMembers s ([some member].map text)).1 = s.erase member := rfl
      have hput := h.put (.set (σ := σ) (s.erase member)) key
      -- the set is put back before it is removed
      have hremove := hput.remove key
      rw [Function.update_idem] at hremove
      refine Answers.of_wp ?_
      rw [text, Option.getD_some, wp_bind, wp_iff, hrun.value, hrun.final]
      simp only [Database.putEntity, Database.remove, Database.addAof, Database.modifyDB, wp_bind,
        wp_modify, wp_ite, wp_pure, hcount, hleft, Finset.card_eq_zero]
      by_cases hempty : s.erase member = ∅
      · rw [if_pos hempty, if_pos hempty]
        split
        · exact ⟨_, rfl, ⟨by decide, by decide⟩, rfl, hremove.aof _⟩
        · exact ⟨_, rfl, ⟨by decide, by decide⟩, rfl, hremove⟩
      · rw [if_neg hempty, if_neg hempty]
        split
        · exact ⟨_, rfl, ⟨by decide, by decide⟩, rfl, hput.aof _⟩
        · exact ⟨_, rfl, ⟨by decide, by decide⟩, rfl, hput⟩
  | hash fields hrun => exact ⟨.wrongTypeErr, w, .bind hrun (.pure _ _), trivial, rfl, h⟩
  | other hrun => exact ⟨.wrongTypeErr, w, .bind hrun (.pure _ _), trivial, rfl, h⟩

theorem del_answers (key : Bytes) :
    ∃ reply w', Runs (Database.execDel [some key]) w reply w' ∧ Answers reply w' (db.del key) := by
  have hpresent : (w.db.data.lookup key).isSome = (db key).isSome := (h key).2.isSome
  refine Answers.of_wp ?_
  simp only [Database.execDel, List.map_cons, List.map_nil, Database.removes, Database.has,
    Database.remove, Database.addAof, Database.modifyDB, wp_bind, wp_get, wp_modify, wp_ite, wp_pure,
    text, Option.getD_some, hpresent, Db.del]
  by_cases hkey : (db key).isSome = true
  · rw [if_pos hkey, if_pos hkey, if_pos (by decide)]
    exact ⟨_, rfl, ⟨by decide, by decide⟩, rfl, (h.remove key).aof _⟩
  · rw [if_neg hkey, if_neg hkey, if_neg (by decide)]
    have hsame : Function.update db key none = db := by
      rw [Option.not_isSome_iff_eq_none] at hkey
      rw [← hkey, Function.update_eq_self]
    rw [hsame]
    exact ⟨_, rfl, ⟨by decide, by decide⟩, rfl, h⟩

theorem smembers_answers {n : Nat} (htame : db.Tame n) (hn : n < 2 ^ 32)
    (hlib : lib.members = env.choices.order) (key : Bytes) :
    ∃ reply w', Runs (Database.execSMembers env [some key]) w reply w' ∧
      Answers reply w' (db.smembers lib key, db) := by
  have hat := h.setAt env key
  have htame := htame key
  rw [Database.execSMembers, Db.smembers]
  generalize db key = item at hat htame
  cases hat with
  | absent hrun => exact ⟨.emptyMultiBulk, w, .bind hrun (.pure _ _), trivial, rfl, h⟩
  | set s hrun =>
      obtain ⟨hmembers, hcard⟩ := htame _ rfl
      refine ⟨_, w, .bind hrun (.pure _ _), ?_⟩
      rw [hlib]
      refine array_answers h ?_ fun b hb => ?_
      · rw [List.length_map, env.choices.length_order]
        exact Nat.lt_of_le_of_lt hcard hn
      · obtain ⟨member, hmem, hb⟩ := List.mem_map.mp hb
        obtain rfl := Option.some.inj hb
        exact hmembers _ ((env.choices.mem_order _ _).mp hmem)
  | hash fields hrun => exact ⟨.wrongTypeErr, w, .bind hrun (.pure _ _), trivial, rfl, h⟩
  | other hrun => exact ⟨.wrongTypeErr, w, .bind hrun (.pure _ _), trivial, rfl, h⟩

end

/-- The error for too few arguments names the command as the client expects it. -/
theorem argNumErr_answers (h : Shows w db) :
    Answers (.argNumErr (Database.toLower (bytes "HMSET"))) w
      (.standardErr (bytes "ERR wrong number of arguments for 'hmset' command"), db) :=
  ⟨by rw [Intact]; decide +kernel, rfl, h⟩

section

variable [LinearOrder σ] [Inhabited σ]

theorem executor_answers {n : Nat} (h : Shows w db) (htame : db.Tame n) (hn : n < 2 ^ 32)
    (hlib : lib.members = env.choices.order) {r : Request} (hsafe : Safe r.line)
    (harity : validateArity (command env r.command).arity (r.line.map some) = true) :
    ∃ reply w', Runs ((command env r.command).executor (r.args.map some)) w reply w' ∧
      Answers reply w' (r.apply lib db) := by
  cases r with
  | hmset args =>
      rcases args with _ | ⟨key, args⟩
      · simp [Request.command, command, validateArity, Request.line, Request.args] at harity
      · refine hmset_answers h key ?_
        simp [Request.command, command, validateArity, Request.line, Request.args] at harity
        omega
  | hmget key fields =>
      refine hmget_answers h htame key ?_
      have hline := hsafe.1
      simp [Request.line, Request.args] at hline
      omega
  | hget key field => exact hget_answers h htame key field
  | sadd key member => exact sadd_answers h key member
  | srem key member => exact srem_answers h key member
  | smembers key => exact smembers_answers h htame hn hlib key
  | del key => exact del_answers h key

theorem request_answers {n : Nat} (h : Shows w db) (htame : db.Tame n) (hn : n < 2 ^ 32)
    (hlib : lib.members = env.choices.order) {r : Request} (hasks : r.Asks) (hsafe : Safe r.line) :
    Answers (Database.exec env (r.line.map some) w).1 (Database.exec env (r.line.map some) w).2
      (r.apply lib db) := by
  by_cases harity : validateArity (command env r.command).arity (r.line.map some) = true
  · exact exec_answers r.cmdTable_name harity fun versionMap =>
      executor_answers (h.versions versionMap) htame hn hlib hsafe harity
  · have hbad : validateArity (command env r.command).arity (r.line.map some) = false :=
      Bool.not_eq_true _ ▸ harity
    cases r with
    | hmset args =>
        have hshort : db.hmset args =
            (.standardErr (bytes "ERR wrong number of arguments for 'hmset' command"), db) := by
          rcases args with _ | ⟨key, args⟩
          · rfl
          · simp [Request.command, command, validateArity, Request.line, Request.args] at hbad
            rw [Db.hmset, if_pos (by omega)]
        rw [Request.apply, hshort]
        exact exec_answers_badArity (Request.cmdTable_name (.hmset args)) hbad (argNumErr_answers h)
    | hmget key fields =>
        have hpos := List.length_pos_iff.mpr hasks
        simp [Request.command, command, validateArity, Request.line, Request.args] at hbad
        omega
    | hget | sadd | srem | smembers | del => cases hbad

end

theorem Item.Tame.mono {n m : Nat} {item : Item} (h : item.Tame n) (hle : n ≤ m) : item.Tame m := by
  cases item with
  | hash fields => exact h
  | set members => exact ⟨h.1, h.2.trans hle⟩
  | other => exact h

theorem Db.Tame.mono {n m : Nat} (h : db.Tame n) (hle : n ≤ m) : db.Tame m :=
  fun key item hitem => (h key item hitem).mono hle

theorem Db.Tame.put {n : Nat} {item : Item} (h : db.Tame n) (hitem : item.Tame n) (key : Bytes) :
    Db.Tame n (Function.update db key (some item)) := by
  intro k item' hk
  by_cases hkey : k = key
  · subst hkey
    rw [Function.update_self] at hk
    exact Option.some.inj hk ▸ hitem
  · rw [Function.update_of_ne hkey] at hk
    exact h k item' hk

theorem Db.Tame.remove {n : Nat} (h : db.Tame n) (key : Bytes) :
    Db.Tame n (Function.update db key none) := by
  intro k item hk
  by_cases hkey : k = key
  · subst hkey
    rw [Function.update_self] at hk
    cases hk
  · rw [Function.update_of_ne hkey] at hk
    exact h k item hk

theorem tame_putFields {fields : Hash} {args : List Bytes} (h : ∀ f b, fields f = some b → Tame b)
    (hargs : ∀ arg ∈ args, Tame arg) (f b : Bytes) (hb : Db.putFields fields args f = some b) : Tame b := by
  induction args using List.twoStepInduction generalizing fields with
  | nil => exact h f b hb
  | singleton a => exact h f b hb
  | cons_cons field value args ih =>
      refine @ih (Function.update fields field (some value)) ?_
        (fun arg harg => hargs arg (by simp [harg])) hb
      intro f' b' hb'
      by_cases hf : f' = field
      · subst hf
        rw [Function.update_self] at hb'
        exact Option.some.inj hb' ▸ hargs value (by simp)
      · rw [Function.update_of_ne hf] at hb'
        exact h f' b' hb'

/-- A request adds a member at most. -/
theorem Db.Tame.apply {n : Nat} (h : db.Tame n) {r : Request} (hsafe : Safe r.line) :
    Db.Tame (n + 1) (r.apply lib db).2 := by
  have hmono : db.Tame (n + 1) := h.mono (Nat.le_succ n)
  have hargs : ∀ arg ∈ r.args, LocalDb.Tame arg := fun arg harg => hsafe.2 arg (List.mem_cons_of_mem _ harg)
  cases r with
  | hmset args =>
      rcases args with _ | ⟨key, args⟩
      · exact hmono
      · have hvalues : ∀ arg ∈ args, LocalDb.Tame arg := fun arg harg =>
          hargs arg (List.mem_cons_of_mem _ harg)
        have hitem := h key
        rw [Request.apply, Db.hmset]
        generalize db key = item at hitem
        split_ifs
        · exact hmono
        · exact hmono
        · rcases item with _ | fields | s | _
          · have hfields := @tame_putFields (fun _ => none) args (fun f b hb => by cases hb) hvalues
            exact hmono.put (show Item.Tame _ (.hash _) from hfields) key
          · have hfields := tame_putFields (hitem _ rfl) hvalues
            exact hmono.put (show Item.Tame _ (.hash _) from hfields) key
          · exact hmono
          · exact hmono
  | hmget key fields => exact hmono
  | hget key field => exact hmono
  | sadd key member =>
      have hmember : LocalDb.Tame member := hargs member (by simp [Request.args])
      have hitem := h key
      rw [Request.apply, Db.sadd]
      generalize db key = item at hitem
      rcases item with _ | fields | s | _
      · have hnew : Item.Tame (n + 1) (.set {member}) := ⟨by simpa using hmember, by simp⟩
        exact hmono.put hnew key
      · exact hmono
      · obtain ⟨hmembers, hcard⟩ := hitem _ rfl
        have hmore : Item.Tame (n + 1) (.set (insert member s)) := by
          refine ⟨fun b hb => ?_, (Finset.card_insert_le member s).trans (Nat.succ_le_succ hcard)⟩
          rcases Finset.mem_insert.mp hb with rfl | hb
          · exact hmember
          · exact hmembers b hb
        exact hmono.put hmore key
      · exact hmono
  | srem key member =>
      have hitem := hmono key
      rw [Request.apply, Db.srem]
      generalize db key = item at hitem
      rcases item with _ | fields | s | _
      · exact hmono
      · exact hmono
      · obtain ⟨hmembers, hcard⟩ := hitem _ rfl
        have hfewer : Item.Tame (n + 1) (.set (s.erase member)) :=
          ⟨fun b hb => hmembers b (Finset.mem_of_mem_erase hb), Finset.card_erase_le.trans hcard⟩
        dsimp only
        split_ifs
        · exact hmono.remove key
        · exact hmono.put hfewer key
      · exact hmono
  | smembers key => exact hmono
  | del key => exact hmono.remove key

def applyAll (lib : Library) : List Request → Db → List Reply × Db
  | [], db => ([], db)
  | r :: requests, db =>
      let (reply, db) := r.apply lib db
      let (replies, db) := applyAll lib requests db
      (reply :: replies, db)

section

variable [LinearOrder σ] [Inhabited σ]

def execServer (env : Env σ) (w : World σ) (line : Database.CmdLine) : Option Reply × World σ :=
  let (reply, w) := Database.exec env line w
  (some reply, w)

theorem execAll_answers {requests : List Request} {n : Nat} (hasks : ∀ r ∈ requests, r.Asks)
    (hsafe : ∀ r ∈ requests, Safe r.line) (hlib : lib.members = env.choices.order) (h : Shows w db)
    (htame : db.Tame n) (hn : n + requests.length < 2 ^ 32) :
    ∃ replies : List Reply,
      (execAll (execServer env) (requests.map Request.line) w).1 = replies.map some ∧
        (∀ reply ∈ replies, Intact reply) ∧ replies.map received = (applyAll lib requests db).1 ∧
        Shows (execAll (execServer env) (requests.map Request.line) w).2 (applyAll lib requests db).2 := by
  induction requests generalizing w db n with
  | nil => exact ⟨[], rfl, by simp, rfl, h⟩
  | cons r requests ih =>
      rw [List.length_cons] at hn
      obtain ⟨hintact, hreply, hshows⟩ := request_answers h htame (by omega) hlib
        (hasks r List.mem_cons_self) (hsafe r List.mem_cons_self)
      obtain ⟨replies, hresults, hintacts, hreplies, hfinal⟩ := ih
        (fun r' hr' => hasks r' (List.mem_cons_of_mem r hr'))
        (fun r' hr' => hsafe r' (List.mem_cons_of_mem r hr')) hshows
        (htame.apply (hsafe r List.mem_cons_self)) (by omega)
      refine ⟨(Database.exec env (r.line.map some) w).1 :: replies, ?_, ?_, ?_, hfinal⟩
      · exact congrArg (some (Database.exec env (r.line.map some) w).1 :: ·) hresults
      · exact List.forall_mem_cons.mpr ⟨hintact, hintacts⟩
      · exact congrArg₂ List.cons hreply hreplies

/-- Wherever the connection breaks, the requests that have come in as a whole are answered as the
client expects, and leave the database with what it then takes it to hold. -/
theorem requests_answered {requests : List Request} {n : Nat} (hasks : ∀ r ∈ requests, r.Asks)
    (hsafe : ∀ r ∈ requests, Safe r.line) (hlib : lib.members = env.choices.order) (h : Shows w db)
    (htame : db.Tame n) (hn : n + requests.length < 2 ^ 32) (m : Nat) :
    let lines := requests.map Request.line
    let served := requests.take (whole m lines).length
    let (sent, w') := handleServer (execServer env) (Parser.parseStream ((lines.flatMap encode).take m)) w
    Parser.parseStream sent = (applyAll lib served db).1.map .reply ++ [.error .eof] ∧
      Shows w' (applyAll lib served db).2 := by
  dsimp only
  generalize hserved : requests.take (whole m (requests.map Request.line)).length = served
  have hsub : ∀ r ∈ served, r ∈ requests := fun r hr => List.mem_of_mem_take (hserved ▸ hr)
  have hlines : whole m (requests.map Request.line) = served.map Request.line := by
    rw [← hserved, List.map_take]
    exact List.prefix_iff_eq_take.mp (whole_beginning m _)
  have hlen : served.length ≤ requests.length := by
    rw [← hserved, List.length_take]
    exact Nat.min_le_right _ _
  obtain ⟨replies, hresults, hintact, hreplies, hshows⟩ := execAll_answers
    (fun r hr => hasks r (hsub r hr)) (fun r hr => hsafe r (hsub r hr)) hlib h htame
    (Nat.lt_of_le_of_lt (Nat.add_le_add_left hlen n) hn)
  have hne : ∀ line ∈ requests.map Request.line, line ≠ [] := by simp [Request.line]
  have hsafes : ∀ line ∈ requests.map Request.line, Safe line := by simpa using hsafe
  obtain ⟨err, hparse, herr⟩ := parseStream_take hne hsafes m
  rw [hparse, handleServer_decoded _ _ _ herr, hlines, hresults]
  refine ⟨?_, hshows⟩
  have hread := parseStream_replies hintact []
  rw [List.append_nil] at hread
  rw [List.flatMap_map, ← hreplies, List.map_map]
  exact hread.trans (congrArg _ parse0_nil)

end

theorem tame_empty : Db.Tame 0 fun _ => none := fun _ _ h => by cases h

/-- Maps are gone through as they are, and sets as the database does. -/
def Library.alongside (env : Env σ) : Library where
  order := id
  order_perm := fun _ => .refl _
  members := env.choices.order
  members_nodup := env.choices.order_nodup
  mem_members := env.choices.mem_order
  newString := []

def jobRequests : List Request := [.sadd jobKeysSet (bytes "1"), .smembers jobKeysSet]

/-- The second request is cut off before its last two bytes. -/
theorem requests_answered_jobRequests :
    let lines := jobRequests.map Request.line
    let served := jobRequests.take (whole 75 lines).length
    let (sent, w') := handleServer (execServer (.plain 0))
      (Parser.parseStream ((lines.flatMap encode).take 75)) .empty
    Parser.parseStream sent =
        (applyAll (.alongside (.plain 0)) served fun _ => none).1.map .reply ++ [.error .eof] ∧
      Shows w' (applyAll (.alongside (.plain 0)) served fun _ => none).2 := by
  have hasks : ∀ r ∈ jobRequests, r.Asks := by
    intro r hr
    rcases List.mem_pair.mp hr with rfl | rfl <;> exact trivial
  exact requests_answered hasks (by decide +kernel) rfl shows_empty tame_empty (by decide) 75

end Traitor.LocalDb
