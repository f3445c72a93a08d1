import Traitor.LostCollections
import Traitor.SetUndo

namespace Traitor.Database

open Lib.Effects Lib.Strconv Protocol

variable {σ : Type} {env : Env σ} {w : World σ} {key : Bytes}

structure HashAt (env : Env σ) (w : World σ) (key : Bytes) (held : Option (Dict HashValue)) : Prop where
  data : w.db.data.lookup key = held.map .hash
  fresh : w.db.isExpired env key = false

variable {held : Option (Dict HashValue)}

theorem HashAt.view (h : HashAt env w key held) : w.db.view env Entity.asHash key = .ok held := by
  have hlive : w.db.live env key = held.map .hash := by
    rw [DB.live, h.fresh, if_neg Bool.false_ne_true, h.data]
  rw [DB.view, hlive]
  cases held <;> rfl

theorem HashAt.getAs (h : HashAt env w key held) : Runs (getAsDict env key) w (.ok held) w :=
  h.view ▸ getAs_runs h.fresh Entity.asHash

def HashValue.text : HashValue → Bytes
  | .slice s => Database.text s
  | .string s => s

inductive HashWrite
  | hSet (field value : Slice)
  | hSetNX (field value : Slice)
  | hMSet (rest : List Slice)
  | hDel (fields : List Slice)
  | hIncrBy (field rawDelta : Slice)

namespace HashWrite

def exec (env : Env σ) (key : Slice) : HashWrite → Exec σ Reply
  | .hSet field value => execHSet env [key, field, value]
  | .hSetNX field value => execHSetNX env [key, field, value]
  | .hMSet rest => execHMSet env (key :: rest)
  | .hDel fields => execHDel env (key :: fields)
  | .hIncrBy field rawDelta => execHIncrBy env [key, field, rawDelta]

/-- The finite map after a command: under each field what was written last, and if it is stored as a
string. Sums are exact. -/
def apply (m : Dict HashValue) : HashWrite → Dict HashValue
  | .hSet field value => m.insert (text field) (.string (text value))
  | .hSetNX field value =>
      if (m.lookup (text field)).isSome then m else m.insert (text field) (.slice value)
  | .hMSet rest => if rest.length % 2 = 0 then putFields m (fieldPairs rest) else m
  | .hDel fields => (removeFields m (fields.map text)).1
  | .hIncrBy field rawDelta =>
      match parseInt 64 (text rawDelta), m.lookup (text field) with
      | none, _ => m
      | some _, none => m.insert (text field) (.slice rawDelta)
      | some delta, some value =>
          match parseInt 64 value.text with
          | none => m
          | some val => m.insert (text field) (.slice (some (formatInt (val + delta))))

def Exact (m : Dict HashValue) : HashWrite → Prop
  | .hIncrBy field rawDelta => ∀ delta value val, parseInt 64 (text rawDelta) = some delta →
      m.lookup (text field) = some value → parseInt 64 value.text = some val →
        -2 ^ 63 ≤ val + delta ∧ val + delta < 2 ^ 63
  | _ => True

/-- `HINCRBY` does not come to a field that `HSET` has written last. -/
def Clean (m : Dict HashValue) : HashWrite → Prop
  | .hIncrBy field rawDelta => (parseInt 64 (text rawDelta)).isSome → ∀ s, m.lookup (text field) ≠ some (.string s)
  | _ => True

def applyAll (m : Dict HashValue) (commands : List (Env σ × HashWrite)) : Dict HashValue :=
  commands.foldl (fun m c => c.2.apply m) m

def AllExact (m : Dict HashValue) : List (Env σ × HashWrite) → Prop
  | [] => True
  | c :: commands => c.2.Exact m ∧ AllExact (c.2.apply m) commands

def AllClean (m : Dict HashValue) : List (Env σ × HashWrite) → Prop
  | [] => True
  | c :: commands => c.2.Clean m ∧ AllClean (c.2.apply m) commands

def execAll (key : Slice) : List (Env σ × HashWrite) → Exec σ PUnit
  | [] => pure ⟨⟩
  | c :: commands => do
      let _ ← c.2.exec c.1 key
      execAll key commands

end HashWrite

def HoldsHash (w : World σ) (key : Bytes) (held : Option (Dict HashValue)) : Prop :=
  w.db.slot key = ⟨held.map .hash, none⟩

theorem HoldsHash.at (h : HoldsHash w key held) (env : Env σ) : HashAt env w key held := by
  refine ⟨congrArg Slot.data h, ?_⟩
  rw [DB.isExpired_slot, h]
  rfl

theorem HoldsHash.put (h : HoldsHash w key held) (d : Dict HashValue) :
    HoldsHash { w with db := w.db.put key (.hash d) } key (some d) := by
  rw [HoldsHash, DB.slot_put, if_pos rfl, h]
  rfl

theorem HoldsHash.remove (w : World σ) (key : Bytes) :
    HoldsHash { w with db := w.db.remove key } key none := by
  rw [HoldsHash, DB.slot_remove, if_pos rfl]
  rfl

theorem HoldsHash.aof (h : HoldsHash w key held) (lines : List CmdLine) :
    HoldsHash { w with aof := lines } key held := h

theorem HoldsHash.getOrInit (h : HoldsHash w key held) (env : Env σ) :
    ∃ t, Runs (getOrInitDict env key) w (.ok (held.getD ∅)) t ∧ HoldsHash t key (some (held.getD ∅)) := by
  cases held with
  | none => exact ⟨_, (h.at env).getAs.bind ((putEntity_runs _ _ w).bind (.pure _ _)), h.put ∅⟩
  | some d => exact ⟨w, (h.at env).getAs.bind (.pure _ w), h⟩

def Leaves (m : Exec σ Reply) (w : World σ) (key : Bytes) (d : Dict HashValue) : Prop :=
  ∃ reply t held, Runs m w reply t ∧ HoldsHash t key held ∧ held.getD ∅ = d

/-- What is put, and logged. -/
theorem HoldsHash.puts (h : HoldsHash w key held) (d : Dict HashValue) (line : CmdLine) (reply : Reply) :
    Leaves (do
      setDict key d
      addAof line
      return reply) w key d :=
  ⟨reply, _, some d, (putEntity_runs _ _ w).bind ((addAof_runs _ _).bind (.pure _ _)), (h.put d).aof _, rfl⟩

theorem Leaves.bind {α : Type} {m : Exec σ α} {f : α → Exec σ Reply} {a : α} {t : World σ} {d : Dict HashValue}
    (hm : Runs m w a t) (hf : Leaves (f a) t key d) : Leaves (m >>= f) w key d := by
  obtain ⟨reply, u, held, hrun, hholds, hd⟩ := hf
  exact ⟨reply, u, held, hm.bind hrun, hholds, hd⟩

theorem HoldsHash.stays (h : HoldsHash w key held) (reply : Reply) : Leaves (pure reply) w key (held.getD ∅) :=
  ⟨reply, w, held, .pure _ w, h, rfl⟩

section

variable {first : Slice} {c : HashWrite}

theorem execHSetNX_leaves (h : HoldsHash w (text first) held) (field value : Slice) :
    Leaves (execHSetNX env [first, field, value]) w (text first) ((HashWrite.hSetNX field value).apply (held.getD ∅)) := by
  obtain ⟨t, hrun, hholds⟩ := h.getOrInit env
  refine .bind hrun ?_
  simp only [HashWrite.apply]
  split
  · exact hholds.stays _
  · exact hholds.puts _ _ _

theorem execHMSet_leaves (h : HoldsHash w (text first) held) (rest : List Slice) :
    Leaves (execHMSet env (first :: rest)) w (text first) ((HashWrite.hMSet rest).apply (held.getD ∅)) := by
  rw [execHMSet, HashWrite.apply]
  by_cases hodd : (first :: rest).length % 2 = 1
  · rw [if_neg (not_not.mpr hodd), if_pos (by rw [List.length_cons] at hodd; omega)]
    obtain ⟨t, hrun, hholds⟩ := h.getOrInit env
    exact .bind hrun (hholds.puts _ _ _)
  · rw [if_pos hodd, if_neg (by rw [List.length_cons] at hodd; omega)]
    exact h.stays _

theorem execHDel_leaves (h : HoldsHash w (text first) held) (fields : List Slice) :
    Leaves (execHDel env (first :: fields)) w (text first) ((HashWrite.hDel fields).apply (held.getD ∅)) := by
  refine .bind (h.at env).getAs ?_
  cases held with
  | none =>
      have hnone : (HashWrite.hDel fields).apply ((none : Option (Dict HashValue)).getD ∅) =
          (none : Option (Dict HashValue)).getD ∅ := by
        rw [HashWrite.apply, Option.getD_none, removeFields_empty]
      rw [hnone]
      exact h.stays (.int 0)
  | some d =>
      have hlog (u : World σ) (held' : Option (Dict HashValue)) (hu : HoldsHash u (text first) held') :
          Leaves (do
            if 0 < (removeFields d (fields.map text)).2 then addAof (cmdLine3 "hdel" (first :: fields))
            return .int (removeFields d (fields.map text)).2) u (text first) (held'.getD ∅) := by
        split
        · exact .bind (addAof_runs _ u) ((hu.aof _).stays _)
        · exact hu.stays _
      refine .bind (putEntity_runs _ _ w) ?_
      by_cases hcard : (removeFields d (fields.map text)).1.keys.card = 0
      · have hempty : (removeFields d (fields.map text)).1 = ∅ := keys_eq_zero hcard
        rw [if_pos hcard, HashWrite.apply, Option.getD_some]
        have hremoved := hlog _ none (.remove { w with db := w.db.put (text first) (.hash
          (removeFields d (fields.map text)).1) } (text first))
        rw [Option.getD_none, ← hempty] at hremoved
        exact .bind (remove_runs _ _) hremoved
      · rw [if_neg hcard]
        exact hlog _ _ (h.put _)

theorem execHIncrBy_leaves (h : HoldsHash w (text first) held) {field rawDelta : Slice}
    (hexact : (HashWrite.hIncrBy field rawDelta).Exact (held.getD ∅))
    (hclean : (HashWrite.hIncrBy field rawDelta).Clean (held.getD ∅)) :
    Leaves (execHIncrBy env [first, field, rawDelta]) w (text first)
      ((HashWrite.hIncrBy field rawDelta).apply (held.getD ∅)) := by
  rw [execHIncrBy, HashWrite.apply]
  cases hdelta : parseInt 64 (text rawDelta) with
  | none => exact h.stays _
  | some delta =>
      obtain ⟨t, hrun, hholds⟩ := h.getOrInit env
      refine .bind hrun ?_
      dsimp only
      cases hvalue : (held.getD ∅).lookup (text field) with
      | none => exact hholds.puts _ _ _
      | some value =>
          cases value with
          | string s => exact absurd hvalue (hclean (by rw [hdelta]; rfl) s)
          | slice s =>
              dsimp only
              cases hval : parseInt 64 (text s) with
              | none =>
                  have hsame : parseInt 64 (HashValue.slice s).text = none := hval
                  simp only [hsame]
                  exact hholds.stays _
              | some val =>
                  have hsame : parseInt 64 (HashValue.slice s).text = some val := hval
                  obtain ⟨hlow, hhigh⟩ := hexact delta _ val hdelta hvalue hsame
                  simp only [hsame]
                  rw [wrap64_of_lt hlow hhigh]
                  exact hholds.puts _ _ _

theorem execHIncrBy_panics (h : HoldsHash w (text first) held) {field rawDelta : Slice}
    (hclean : ¬ (HashWrite.hIncrBy field rawDelta).Clean (held.getD ∅)) (reply : Reply) (t : World σ) :
    ¬ Runs (execHIncrBy env [first, field, rawDelta]) w reply t := by
  rw [HashWrite.Clean, Classical.not_imp, not_forall] at hclean
  obtain ⟨hdelta, s, hvalue⟩ := hclean
  obtain ⟨delta, hdelta⟩ := Option.isSome_iff_exists.mp hdelta
  rw [not_not] at hvalue
  obtain ⟨u, hrun, -⟩ := h.getOrInit env
  rw [execHIncrBy]
  simp only [hdelta, hrun.bind_iff, hvalue]
  exact Runs.not_panics

theorem HashWrite.leaves (h : HoldsHash w (text first) held) (hexact : c.Exact (held.getD ∅))
    (hclean : c.Clean (held.getD ∅)) : Leaves (c.exec env first) w (text first) (c.apply (held.getD ∅)) := by
  cases c with
  | hSet field value =>
      obtain ⟨t, hrun, hholds⟩ := h.getOrInit env
      exact .bind hrun (hholds.puts _ _ _)
  | hSetNX field value => exact execHSetNX_leaves h field value
  | hMSet rest => exact execHMSet_leaves h rest
  | hDel fields => exact execHDel_leaves h fields
  | hIncrBy field rawDelta => exact execHIncrBy_leaves h hexact hclean

theorem HashWrite.panics (h : HoldsHash w (text first) held) (hclean : ¬ c.Clean (held.getD ∅)) (reply : Reply)
    (t : World σ) : ¬ Runs (c.exec env first) w reply t := by
  cases c with
  | hSet | hSetNX | hMSet | hDel => exact absurd trivial hclean
  | hIncrBy field rawDelta => exact execHIncrBy_panics h hclean reply t

/-- A run in which no sum meets a string leaves the finite map. -/
theorem HashWrite.execAll_runs (h : HoldsHash w (text first) held) (commands : List (Env σ × HashWrite))
    (hexact : AllExact (held.getD ∅) commands) (hclean : AllClean (held.getD ∅) commands) :
    ∃ t held', Runs (execAll first commands) w ⟨⟩ t ∧ HoldsHash t (text first) held' ∧
      held'.getD ∅ = applyAll (held.getD ∅) commands := by
  induction commands generalizing w held with
  | nil => exact ⟨w, held, .pure _ w, h, rfl⟩
  | cons c commands ih =>
      have hleaves : Leaves (c.2.exec c.1 first) w (text first) (c.2.apply (held.getD ∅)) :=
        HashWrite.leaves h hexact.1 hclean.1
      obtain ⟨reply, u, next, hrun, hholds, hd⟩ := hleaves
      obtain ⟨t, held', hrest, hleft, heq⟩ := ih hholds (hd ▸ hexact.2) (hd ▸ hclean.2)
      exact ⟨t, held', hrun.bind hrest, hleft, by rw [heq, hd]; rfl⟩

theorem HashWrite.execAll_panics (h : HoldsHash w (text first) held) (commands : List (Env σ × HashWrite))
    (hexact : AllExact (held.getD ∅) commands) (hclean : ¬ AllClean (held.getD ∅) commands) (t : World σ) :
    ¬ Runs (execAll first commands) w ⟨⟩ t := by
  induction commands generalizing w held with
  | nil => exact absurd trivial hclean
  | cons c commands ih =>
      intro hrun
      obtain ⟨reply, u, hstep, hrest⟩ := hrun.of_bind
      by_cases hc : c.2.Clean (held.getD ∅)
      · have hleaves : Leaves (c.2.exec c.1 first) w (text first) (c.2.apply (held.getD ∅)) :=
          HashWrite.leaves h hexact.1 hc
        obtain ⟨reply', u', next, hrun', hholds, hd⟩ := hleaves
        obtain ⟨-, rfl⟩ := hrun'.unique hstep
        exact ih hholds (hd ▸ hexact.2) (hd ▸ fun hall => hclean ⟨hc, hall⟩) hrest
      · exact HashWrite.panics h hc reply u hstep

end

/-- The bytes of a field that a reply reports, which are none for a field that is not there. -/
def Reports (value : Option Bytes) (reply : Reply) : Prop :=
  reply = .bulk value ∨ reply = .nullBulk ∧ value = none

def reported (m : Dict HashValue) (field : Bytes) : Option Bytes := (m.lookup field).map HashValue.text

def ListsFields (m : Dict HashValue) (entries : List Bytes → List Slice) (reply : Reply) : Prop :=
  ∃ fields : List Bytes, fields.Nodup ∧ (∀ field, field ∈ fields ↔ field ∈ m) ∧
    (reply = .multiBulk (entries fields) ∨ reply = .emptyMultiBulk ∧ fields = [])

/-- Every read reports the finite map, at any instant, and changes nothing. -/
structure ReadsBack (t : World σ) (key : Slice) (m : Dict HashValue) : Prop where
  hGet : ∀ (env : Env σ) (field : Slice), ∃ reply, Runs (execHGet env [key, field]) t reply t ∧
    Reports (reported m (text field)) reply
  hMGet : ∀ (env : Env σ) (fields : List Slice), Runs (execHMGet env (key :: fields)) t
    (.multiBulk (fields.map fun field => reported m (text field))) t
  hGetAll : ∀ env : Env σ, ∃ reply, Runs (execHGetAll env [key]) t reply t ∧
    ListsFields m (fun fields => fields.flatMap fun field => [some field, reported m field]) reply
  hVals : ∀ env : Env σ, ∃ reply, Runs (execHVals env [key]) t reply t ∧
    ListsFields m (fun fields => fields.map (reported m)) reply
  hStrLen : ∀ (env : Env σ) (field : Slice), Runs (execHStrLen env [key, field]) t
    (.int ((reported m (text field)).getD []).length) t

section

variable {first : Slice}

/-- What is stored as a slice, and not as the nil one, is read as it was written. -/
def StoresSlices (m : Dict HashValue) : Prop :=
  ∀ field value, m.lookup field = some value → ∃ b : Bytes, value = .slice (some b)

theorem StoresSlices.bytes {m : Dict HashValue} (h : StoresSlices m) (field : Bytes) :
    (m.lookup field).bind HashValue.bytes = reported m field := by
  rw [reported]
  cases hvalue : m.lookup field with
  | none => rfl
  | some value =>
      obtain ⟨b, rfl⟩ := h field value hvalue
      rfl

theorem StoresSlices.valueOf_eq {m : Dict HashValue} (h : StoresSlices m) : valueOf m = reported m :=
  funext h.bytes

theorem HoldsHash.hGet (h : HoldsHash w (text first) held) (env : Env σ) (field : Slice) :
    ∃ reply, Runs (execHGet env [first, field]) w reply w ∧
      Reports ((held.getD ∅).lookup (text field) |>.bind HashValue.bytes) reply := by
  cases held with
  | none => exact ⟨.nullBulk, (h.at env).getAs.bind (.pure _ w), .inr ⟨rfl, by simp⟩⟩
  | some d =>
      rw [Option.getD_some]
      cases hvalue : d.lookup (text field) with
      | none =>
          refine ⟨.nullBulk, (h.at env).getAs.bind ?_, .inr ⟨rfl, rfl⟩⟩
          simp only [hvalue]
          exact .pure _ w
      | some value =>
          refine ⟨.bulk value.bytes, (h.at env).getAs.bind ?_, .inl rfl⟩
          simp only [hvalue]
          exact .pure _ w

theorem Reports.unique {value value' : Option Bytes} {reply : Reply} (h : Reports value reply)
    (h' : Reports value' reply) : value' = value := by
  rcases h with rfl | ⟨rfl, rfl⟩ <;> rcases h' with h' | ⟨h', h''⟩ <;> cases h' <;> first | rfl | assumption

theorem listsFields_order (env : Env σ) (d : Dict HashValue) (entries : List Bytes → List Slice) :
    ListsFields d entries (.multiBulk (entries (env.choices.order d.keys))) :=
  ⟨_, env.choices.order_nodup _, fun field => by rw [env.choices.mem_order, Finmap.mem_keys], .inl rfl⟩

theorem listsFields_empty (entries : List Bytes → List Slice) : ListsFields ∅ entries .emptyMultiBulk :=
  ⟨[], List.nodup_nil, fun _ => iff_of_false List.not_mem_nil Finmap.notMem_empty, .inr ⟨rfl, rfl⟩⟩

/-- A string is read as if the field was not there. -/
theorem ReadsBack.storesSlices {m : Dict HashValue} (env : Env σ) (h : HoldsHash w (text first) held)
    (hm : held.getD ∅ = m) (hreads : ReadsBack w first m) : StoresSlices m := by
  intro field value hvalue
  obtain ⟨reply, hrun, hreports⟩ := hreads.hGet env (some field)
  obtain ⟨reply', hrun', hreports'⟩ := h.hGet env (some field)
  obtain ⟨rfl, -⟩ := hrun.unique hrun'
  have hsame := hreports.unique hreports'
  have hfield : text (some field) = field := rfl
  rw [hm, hfield, reported, hvalue, Option.bind_some, Option.map_some] at hsame
  cases value with
  | string s => cases hsame
  | slice s => exact ⟨_, congrArg HashValue.slice hsame⟩

theorem StoresSlices.readsBack {m : Dict HashValue} (hslices : StoresSlices m) (h : HoldsHash w (text first) held)
    (hm : held.getD ∅ = m) : ReadsBack w first m := by
  refine ⟨fun env field => ?_, fun env fields => ?_, fun env => ?_, fun env => ?_, fun env field => ?_⟩
  · obtain ⟨reply, hrun, hreports⟩ := h.hGet env field
    rw [hm, hslices.bytes] at hreports
    exact ⟨reply, hrun, hreports⟩
  · cases held with
    | none =>
        apply (h.at env).getAs.bind
        obtain rfl : ∅ = m := hm
        simp only [reported, Finmap.lookup_empty, Option.map_none]
        exact .pure _ w
    | some d =>
        apply (h.at env).getAs.bind
        obtain rfl : d = m := hm
        simp only [hslices.bytes]
        exact .pure _ w
  · cases held with
    | none =>
        obtain rfl : ∅ = m := hm
        exact ⟨_, (h.at env).getAs.bind (.pure _ w), listsFields_empty _⟩
    | some d =>
        obtain rfl : d = m := hm
        refine ⟨_, (h.at env).getAs.bind (.pure _ w), ?_⟩
        rw [hslices.valueOf_eq]
        exact listsFields_order env d _
  · cases held with
    | none =>
        obtain rfl : ∅ = m := hm
        exact ⟨_, (h.at env).getAs.bind (.pure _ w), listsFields_empty _⟩
    | some d =>
        obtain rfl : d = m := hm
        refine ⟨_, (h.at env).getAs.bind (.pure _ w), ?_⟩
        rw [hslices.valueOf_eq]
        exact listsFields_order env d _
  · rw [← hslices.bytes]
    cases held with
    | none =>
        obtain rfl : ∅ = m := hm
        exact (h.at env).getAs.bind (.pure _ w)
    | some d =>
        obtain rfl : d = m := hm
        apply (h.at env).getAs.bind
        dsimp only
        cases hvalue : d.lookup (text field) with
        | none => exact .pure _ w
        | some value => exact .pure _ w

/-- From a key that is not there, no command panics and every read reports what was written last exactly
when no sum meets a string, and what is left is stored as slices. -/
theorem hash_reads_iff (env : Env σ) (hkey : w.db.slot (text first) = .empty) (commands : List (Env σ × HashWrite))
    (hexact : HashWrite.AllExact ∅ commands) :
    (∃ t, Runs (HashWrite.execAll first commands) w ⟨⟩ t ∧ ReadsBack t first (HashWrite.applyAll ∅ commands)) ↔
      HashWrite.AllClean ∅ commands ∧ StoresSlices (HashWrite.applyAll ∅ commands) := by
  have hholds : HoldsHash w (text first) none := hkey
  by_cases hclean : HashWrite.AllClean ∅ commands
  · obtain ⟨t, held, hrun, hleft, hm⟩ := HashWrite.execAll_runs hholds commands hexact hclean
    rw [and_iff_right hclean]
    constructor
    · rintro ⟨t', hrun', hreads⟩
      obtain ⟨-, rfl⟩ := hrun.unique hrun'
      exact hreads.storesSlices env hleft hm
    · exact fun hslices => ⟨t, hrun, hslices.readsBack hleft hm⟩
  · refine iff_of_false ?_ fun hcond => hclean hcond.1
    rintro ⟨t, hrun, -⟩
    exact HashWrite.execAll_panics hholds commands hexact hclean t hrun

noncomputable def oneField : List (Env ℤ × HashWrite) :=
  [(Env.plain 0, .hSetNX (some (bytes "f")) (some (bytes "1"))),
    (Env.plain 1, .hIncrBy (some (bytes "f")) (some (bytes "2")))]

theorem oneField_apply : HashWrite.apply ∅ (.hSetNX (some (bytes "f")) (some (bytes "1"))) =
    Finmap.insert (bytes "f") (.slice (some (bytes "1"))) ∅ := by
  rw [HashWrite.apply, Finmap.lookup_empty, if_neg (by decide)]
  rfl

theorem hash_reads_iff_oneField :
    ∃ t, Runs (HashWrite.execAll (some (bytes "h")) oneField) .empty ⟨⟩ t ∧
      ReadsBack t (some (bytes "h")) (HashWrite.applyAll ∅ oneField) := by
  have hdelta : parseInt 64 (text (some (bytes "2"))) = some 2 := by decide
  have hval : parseInt 64 (HashValue.slice (some (bytes "1"))).text = some 1 := by decide
  have hfield : (Finmap.insert (bytes "f") (.slice (some (bytes "1"))) ∅ : Dict HashValue).lookup
      (text (some (bytes "f"))) = some (.slice (some (bytes "1"))) := Finmap.lookup_insert _
  have hexact : HashWrite.AllExact ∅ oneField := by
    refine ⟨trivial, ?_, trivial⟩
    rw [oneField_apply]
    intro delta value val hd hv hi
    cases hdelta.symm.trans hd
    cases hfield.symm.trans hv
    cases hval.symm.trans hi
    decide
  refine (hash_reads_iff (Env.plain 0) rfl oneField hexact).mpr ⟨⟨trivial, ?_, trivial⟩, ?_⟩
  · rw [oneField_apply]
    intro _ s hs
    cases hfield.symm.trans hs
  · have hall : HashWrite.applyAll ∅ oneField = Finmap.insert (bytes "f") (.slice (some (formatInt (1 + 2))))
        (Finmap.insert (bytes "f") (.slice (some (bytes "1"))) ∅) := by
      rw [HashWrite.applyAll, oneField, List.foldl_cons, List.foldl_cons, List.foldl_nil, oneField_apply]
      simp only [HashWrite.apply, hdelta, hfield, hval]
      rfl
    rw [hall]
    intro field value hvalue
    by_cases hf : field = bytes "f"
    · rw [hf, Finmap.lookup_insert] at hvalue
      cases hvalue
      exact ⟨_, rfl⟩
    · rw [Finmap.lookup_insert_of_ne _ hf, Finmap.lookup_insert_of_ne _ hf, Finmap.lookup_empty] at hvalue
      cases hvalue

/-- What `HSET` has written is read as if it was not there. -/
theorem hSet_not_read_back :
    ¬ ∃ t, Runs (HashWrite.execAll (some (bytes "h"))
        [(Env.plain 0, .hSet (some (bytes "f")) (some (bytes "v")))]) .empty ⟨⟩ t ∧
      ReadsBack t (some (bytes "h"))
        (HashWrite.applyAll ∅ [(Env.plain 0, .hSet (some (bytes "f")) (some (bytes "v")))]) := by
  rintro ⟨t, hrun, hreads⟩
  have hkey : HoldsHash (σ := ℤ) .empty (text (some (bytes "h"))) none := rfl
  obtain ⟨u, held, hrun', hleft, hm⟩ := HashWrite.execAll_runs hkey
    [(Env.plain 0, .hSet (some (bytes "f")) (some (bytes "v")))] ⟨trivial, trivial⟩ ⟨trivial, trivial⟩
  obtain ⟨-, rfl⟩ := hrun.unique hrun'
  obtain ⟨b, hb⟩ := hreads.storesSlices (Env.plain 0) hleft hm (bytes "f") (.string (bytes "v")) (Finmap.lookup_insert _)
  cases hb

end

end Traitor.Database
