import Traitor.FailedCommands
import Traitor.Renames
import Traitor.SharedStrings

namespace Traitor.Database

open Lib.Effects Lib.LockOrder Lib.Strconv Lib.TwoPhase Protocol Lock

variable {σ : Type} {env : Env σ} {w w' : World σ} {key : Bytes} {b : Bytes} {args : List Slice}

theorem World.string_eq_some : w.string env key = some b ↔ w.db.live env key = some (.str (some b)) := by
  rw [World.string]
  split
  · next s hs => simp [hs]
  · next hs =>
      refine iff_of_false nofun fun h => ?_
      exact hs _ h

theorem World.string_match : w.string env key = match (w.db.slot key).string env.now with
    | .ok s => s
    | .error _ => none := by
  rw [World.string, DB.live_slot, Slot.string]
  cases (w.db.slot key).live env.now with
  | none => rfl
  | some e => cases e <;> rfl

theorem World.string_slot : w.string env key = some b ↔ (w.db.slot key).string env.now = .ok (some b) := by
  rw [World.string_eq_some, DB.live_slot, Slot.string_eq_some]

theorem World.string_data (h : w.string env key = some b) : w.db.data.lookup key = some (.str (some b)) :=
  Slot.live_data (DB.live_slot w.db key ▸ World.string_eq_some.mp h)

def AnswersStored (env : Env σ) (m : List Slice → Exec σ Reply) : Prop :=
  ∀ args w b, value (m args) w = some (.bulk (some b)) →
    ∃ key rest, args = key :: rest ∧ w.string env (text key) = some b

theorem answersStored_of_wp {m : List Slice → Exec σ Reply} (hnil : value (m []) = fun _ => none)
    (h : ∀ key rest w, wp (m (key :: rest)) (fun r _ => ∀ b, r = some (.bulk (some b)) →
      (w.db.slot (text key)).string env.now = .ok (some b)) w) : AnswersStored env m := by
  intro args w b hvalue
  rcases args with _ | ⟨key, rest⟩
  · rw [hnil] at hvalue
    cases hvalue
  · exact ⟨key, rest, rfl, World.string_slot.mpr ((wp_iff _ _ w).mp (h key rest w) b hvalue)⟩

theorem Slot.string_cases (s : Slot σ) (t : Int) :
    s.string t = .error .wrongTypeErr ∨ s.string t = .ok none ∨ ∃ b, s.string t = .ok (some b) := by
  rw [Slot.string]
  cases s.live t with
  | none => exact .inr (.inl rfl)
  | some e =>
      dsimp only
      cases e.asString with
      | none => exact .inl rfl
      | some v =>
          cases v with
          | none => exact .inr (.inl rfl)
          | some b => exact .inr (.inr ⟨b, rfl⟩)

theorem execGet_answersStored : AnswersStored env (execGet env) := by
  refine answersStored_of_wp rfl fun key rest w => ?_
  simp only [execGet, wp_bind, wp_getAsString]
  rcases (w.db.slot (text key)).string_cases env.now with h | h | ⟨b, h⟩ <;> simp [h]

theorem execGetEX_answersStored : AnswersStored env (execGetEX env) := by
  refine answersStored_of_wp rfl fun key rest w => ?_
  simp only [execGetEX, wp_bind, wp_getAsString]
  rcases (w.db.slot (text key)).string_cases env.now with h | h | ⟨b, h⟩
  · simp [h]
  · simp [h]
  · simp only [h, wp_bind, wp_getExOptions]
    cases hp : (getExParse unlimitedTTL rest).2 with
    | error e =>
        intro b' hb
        obtain rfl := Option.some.inj hb
        exact absurd (getExParse_error hp) (by simp)
    | ok ttl =>
        dsimp only
        split
        · simp
        · split <;> simp [expire, persist]

theorem execGetSet_answersStored : AnswersStored env (execGetSet env) := by
  refine answersStored_of_wp rfl fun key rest w => ?_
  rcases rest with _ | ⟨value, rest⟩
  · exact fun b hb => by cases hb
  · simp only [execGetSet, wp_bind, wp_getAsString]
    rcases (w.db.slot (text key)).string_cases env.now with h | h | ⟨b, h⟩ <;> simp [h, putEntity, persist]

theorem execGetDel_answersStored : AnswersStored env (execGetDel env) := by
  refine answersStored_of_wp rfl fun key rest w => ?_
  simp only [execGetDel, wp_bind, wp_getAsString]
  rcases (w.db.slot (text key)).string_cases env.now with h | h | ⟨b, h⟩ <;> simp [h, remove]

/-- A part of the string that is found under the key. -/
theorem execGetRange_answers {rawStart rawEnd key : Slice} (rest : List Slice)
    (h : value (execGetRange env (key :: rawStart :: rawEnd :: rest)) w = some (.bulk (some b))) :
    ∃ start end_ old, parseInt 64 (text rawStart) = some start ∧ parseInt 64 (text rawEnd) = some end_ ∧
      w.string env (text key) = some old ∧
      b = (old.take (convertRange start end_ old.length).2.toNat).drop (convertRange start end_ old.length).1.toNat := by
  have hrun : wp (execGetRange env (key :: rawStart :: rawEnd :: rest)) (fun r _ => r = some (.bulk (some b)) →
      ∃ start end_ old, parseInt 64 (text rawStart) = some start ∧ parseInt 64 (text rawEnd) = some end_ ∧
        (w.db.slot (text key)).string env.now = .ok (some old) ∧
        b = (old.take (convertRange start end_ old.length).2.toNat).drop
          (convertRange start end_ old.length).1.toNat) w := by
    simp only [execGetRange]
    cases hstart : parseInt 64 (text rawStart) with
    | none => exact nofun
    | some start =>
        cases hend : parseInt 64 (text rawEnd) with
        | none => exact nofun
        | some end_ =>
            simp only [wp_bind, wp_getAsString]
            rcases (w.db.slot (text key)).string_cases env.now with hs | hs | ⟨old, hs⟩
            · simp [hs]
            · simp [hs]
            · simp only [hs]
              split
              · simp
              · simp only [wp_pure, Option.some.injEq, Reply.bulk.injEq]
                rintro rfl
                exact ⟨start, end_, old, rfl, rfl, rfl, rfl⟩
  obtain ⟨start, end_, old, hstart, hend, hold, hb⟩ := (wp_iff _ _ w).mp hrun h
  exact ⟨start, end_, old, hstart, hend, World.string_slot.mpr hold, hb⟩

/-- What is answered is stored. -/
theorem execIncrByFloat_stores {key : Slice} {rest : List Slice}
    (h : value (execIncrByFloat env (key :: rest)) w = some (.bulk (some b))) :
    (final (execIncrByFloat env (key :: rest)) w).db.data.lookup (text key) = some (.str (some b)) := by
  rcases rest with _ | ⟨rawDelta, rest⟩
  · cases h
  · have hrun : wp (execIncrByFloat env (key :: rawDelta :: rest)) (fun r w' => r = some (.bulk (some b)) →
        w'.db.data.lookup (text key) = some (.str (some b))) w := by
      simp only [execIncrByFloat]
      split
      · exact nofun
      · simp only [wp_bind, wp_getAsString]
        rcases (w.db.slot (text key)).string_cases env.now with hs | hs | ⟨old, hs⟩
        · simp [hs]
        · simp +contextual [hs, putEntity, lookup_put]
        · simp only [hs]
          split
          · exact nofun
          · simp +contextual [putEntity, lookup_put]
    exact (wp_iff _ _ w).mp hrun h

/-- What is stored after an append begins with what was stored. -/
theorem execAppend_grows {old : Bytes} (hkey : key ∈ (writeFirstKey args).1) (hold : w.string env key = some old)
    (hb : (final (execAppend env args) w).db.data.lookup key = some (.str (some b))) : b.take old.length = old := by
  rcases args with _ | ⟨k, _ | ⟨l, rest⟩⟩
  · cases hkey
  · rw [show (final (execAppend env [k]) w).db.data.lookup key = _ from World.string_data hold] at hb
    cases hb
    exact List.take_length
  · obtain rfl : key = text k := by simpa [writeFirstKey] using hkey
    have hrun : wp (execAppend env (k :: l :: rest)) (fun _ w' =>
        w'.db.data.lookup (text k) = some (.str (some (old ++ text l)))) w := by
      simp only [execAppend, wp_bind, wp_getAsString, World.string_slot.mp hold]
      simp [append, text, putEntity, lookup_put]
    rw [(wp_iff _ _ w).mp hrun] at hb
    cases hb
    exact List.take_left

theorem moveTTL_data (src dest : Bytes) (ttl : Option Int) (w : World σ) :
    wp (moveTTL src dest ttl) (fun _ w' => w'.db.data = w.db.data) w := by
  cases ttl with
  | none => exact rfl
  | some t => exact rfl

/-- What is under the new name was found under the other. -/
theorem execRename_moves {src dest : Slice} (hok : value (execRename env [src, dest]) w = some .ok)
    (hb : (final (execRename env [src, dest]) w).db.data.lookup (text dest) = some (.str (some b))) :
    w.string env (text src) = some b := by
  cases hlive : w.db.live env (text src) with
  | none =>
      rw [(execRename_of_none dest hlive).1] at hok
      cases hok
  | some e =>
      by_cases hne : text src = text dest
      · have hslot := hb.symm.trans (congrArg Slot.data (execRename_self hlive hne).2)
        cases hslot
      · have hslot := hb.symm.trans (congrArg Slot.data ((execRename_of_some hlive hne).2 (text dest)))
        rw [if_pos rfl] at hslot
        exact World.string_eq_some.mpr (hlive.trans hslot.symm)

theorem execRenameNx_moves {src dest : Slice} {rest : List Slice}
    (hone : value (execRenameNx env (src :: dest :: rest)) w = some (.int 1))
    (hb : (final (execRenameNx env (src :: dest :: rest)) w).db.data.lookup (text dest) = some (.str (some b))) :
    w.string env (text src) = some b := by
  have hrun : wp (execRenameNx env (src :: dest :: rest)) (fun r w' => r = some (.int 1) →
      w'.db.data.lookup (text dest) = w.db.live env (text src)) w := by
    simp only [execRenameNx, wp_bind, wp_getEntity]
    cases w.db.live env (text dest) with
    | some _ => exact fun heq => by cases heq
    | none =>
        have hsame : (w.db.evict env (text dest)).live env (text src) = _ :=
          DB.live_eq ((w.db.keeps_evict (text dest)).2 (text src))
        simp only [wp_bind, wp_getEntity, hsame]
        cases w.db.live env (text src) with
        | none => exact fun heq => by cases heq
        | some e =>
            simp only [getTTL, wp_bind, wp_get, wp_pure]
            refine wp_mono ((wp_iff _ (fun _ _ => True) _).mpr trivial) fun r t _ => ?_
            cases r with
            | none => exact fun heq => by cases heq
            | some n =>
                simp only [putEntity, wp_modifyDB]
                refine wp_mono (moveTTL_data _ _ _ _) fun r t' hdata => ?_
                cases r with
                | none => exact fun heq => by cases heq
                | some u =>
                    intro _
                    simp only [hdata]
                    simp [DB.put]
  rw [(wp_iff _ _ w).mp hrun hone] at hb
  exact World.string_eq_some.mpr hb

theorem string_evict (w : World σ) (key k : Bytes) :
    World.string env { w with db := w.db.evict env key } k = w.string env k := by
  have hlive : (w.db.evict env key).live env k = w.db.live env k := DB.live_eq ((w.db.keeps_evict key).2 k)
  rw [World.string, World.string]
  dsimp only
  rw [hlive]

theorem readStrings_value (keys : List Slice) (w : World σ) :
    value (readStrings env keys) w = some (keys.map fun key => w.string env (text key)) := by
  suffices hrun : wp (readStrings env keys) (fun r _ => r = some (keys.map fun key => w.string env (text key))) w
    from (wp_iff _ _ w).mp hrun
  induction keys generalizing w with
  | nil => simp [readStrings]
  | cons key keys ih =>
      have hrest := ih { w with db := w.db.evict env (text key) }
      simp only [string_evict] at hrest
      simp only [readStrings, wp_bind, wp_getAsString, List.map_cons]
      rw [World.string_match]
      rcases (w.db.slot (text key)).string env.now with e | s
      all_goals
        simp only [wp_bind, wp_pure]
        exact wp_mono hrest fun r _ hr => by rw [hr]

theorem set_puts [LinearOrder σ] [Inhabited σ] (key value : Slice) (w : World σ) :
    (final ((command env .set).executor [key, value]) w).db.data.lookup (text key) = some (.str value) := by
  rw [command, execSet_final]
  simp [setOptions, Policy.allows, DB.put, DB.persist]

/-- What is under a key to which a command has moved a value was found under the other key. -/
theorem movedFrom_string [LinearOrder σ] [Inhabited σ] {c : CommandName} {src : Bytes}
    (hfrom : movedFrom c args (value ((command env c).executor args) w) key = some src)
    (hb : (final ((command env c).executor args) w).db.data.lookup key = some (.str (some b))) :
    w.string env src = some b := by
  rw [movedFrom.eq_def] at hfrom
  split at hfrom
  · next hok =>
      split at hfrom
      · next hkey =>
          cases hfrom
          exact execRename_moves hok (hkey ▸ hb)
      · cases hfrom
  · next hone =>
      split at hfrom
      · next hkey =>
          cases hfrom
          exact execRenameNx_moves hone (hkey ▸ hb)
      · cases hfrom
  · cases hfrom

namespace Shared

def Consistent (s : Shared σ) : Prop :=
  ∀ key b, s.world.db.data.lookup key = some (.str (some b)) →
    s.memory.read (s.stored key) = b ∧ s.memory.Taken (s.stored key)

/-- A slice that comes with a line is what the line sets. -/
def Given (s : Shared σ) (c : CommandName) (args : List Slice) (held : Option (List Cell)) : Prop :=
  ∀ slice, held = some slice →
    c = .set ∧ (∃ key, args = [key, some (s.memory.read slice)]) ∧ s.memory.Taken slice

theorem Consistent.string {s : Shared σ} (h : s.Consistent) (hb : s.world.string env key = some b) :
    s.memory.read (s.stored key) = b ∧ s.memory.Taken (s.stored key) := h key b (World.string_data hb)

section

variable [LinearOrder σ] [Inhabited σ] (fits : Bool) {c : CommandName} {held : Option (List Cell)}
  {reply : Option Reply} {s : Shared σ}

omit [LinearOrder σ] [Inhabited σ] in
theorem overwritten_eq (hc : c ∉ overwriting) : s.overwritten env c args w = s.memory := by
  rw [overwritten.eq_def]
  split
  · split
    · exact if_neg hc
    · rfl
  · rfl

/-- The slice goes on where one ends that was there, and the new bytes are in new cells. -/
theorem place_cells (hs : s.Consistent) (hc : c ∉ overwriting)
    (hheld : s.Given c args held)
    (hreply : value ((command env c).executor args) s.world = reply)
    (hw : final ((command env c).executor args) s.world = w)
    (hb : w.db.data.lookup key = some (.str (some b))) :
    ∃ part, (s.place env fits c args held reply w key).1 =
        part ++ s.memory.fresh key (s.place env fits c args held reply w key).2.length ∧
      s.memory.Taken part ∧ s.memory.read part ++ (s.place env fits c args held reply w key).2 = b := by
  have hnew : ∃ part, s.memory.fresh key b.length = part ++ s.memory.fresh key b.length ∧
      s.memory.Taken part ∧ s.memory.read part ++ b = b :=
    ⟨[], rfl, fun _ ha => absurd ha List.not_mem_nil, rfl⟩
  have hwhole {slice : List Cell} (h : s.memory.read slice = b ∧ s.memory.Taken slice) :
      ∃ part, slice = part ++ s.memory.fresh key 0 ∧ s.memory.Taken part ∧ s.memory.read part ++ [] = b :=
    ⟨slice, (List.append_nil _).symm, h.2, (List.append_nil _).trans h.1⟩
  rw [place, hb]
  dsimp only
  split
  · next hgrowing =>
      obtain ⟨hgrows, hkey⟩ := hgrowing
      obtain rfl := (List.mem_cons.mp hgrows).resolve_right hc
      split
      · exact hnew
      · next old hold =>
          split
          · obtain ⟨hread, htaken⟩ := hs.string hold
            refine ⟨s.stored key, by rw [List.length_drop], htaken, ?_⟩
            calc s.memory.read (s.stored key) ++ b.drop old.length
              _ = b.take old.length ++ b.drop old.length := by
                rw [hread, execAppend_grows hkey hold (hw ▸ hb)]
              _ = b := List.take_append_drop _ _
          · exact hnew
  · split
    · next src hfrom =>
        rw [← hreply] at hfrom
        exact hwhole (hs.string (movedFrom_string hfrom (hw ▸ hb)))
    · split
      · next hputs =>
          split
          · next slice =>
              obtain ⟨rfl, ⟨key', rfl⟩, htaken⟩ := hheld slice rfl
              obtain rfl : key = text key' := by simpa [command, writeFirstKey] using hputs.2
              rw [← hw, set_puts] at hb
              cases hb
              exact hwhole ⟨rfl, htaken⟩
          · exact hnew
      · split
        · next hstring => exact hwhole (hs.string hstring)
        · exact hnew

theorem settle_extends (hc : c ∉ overwriting) :
    s.memory.Extends (s.settle env fits c args held reply w).memory := by
  simp only [settle, overwritten_eq hc]
  exact Lib.Cells.Memory.extends_extend _ _

theorem settle_consistent (hs : s.Consistent) (hc : c ∉ overwriting)
    (hheld : s.Given c args held)
    (hreply : value ((command env c).executor args) s.world = reply)
    (hw : final ((command env c).executor args) s.world = w) :
    (s.settle env fits c args held reply w).Consistent := by
  intro key b hb
  obtain ⟨part, hcells, htaken, hread⟩ := place_cells fits hs hc hheld hreply hw hb
  have hextends := Lib.Cells.Memory.extends_extend s.memory fun key => (s.place env fits c args held reply w key).2
  simp only [settle, overwritten_eq hc]
  rw [hcells, Lib.Cells.Memory.taken_append, Lib.Cells.Memory.read_append]
  rw [hextends.read htaken, Lib.Cells.Memory.read_fresh rfl]
  exact ⟨hread, hextends.taken htaken, Lib.Cells.Memory.taken_fresh rfl⟩

end

end Shared

namespace Result

def Taken (m : Lib.Cells.Memory Bytes UInt8) : Result → Prop
  | .own _ => True
  | .bulk slice => m.Taken slice
  | .multiBulk slices => ∀ slice, some slice ∈ slices → m.Taken slice

variable {m m' : Lib.Cells.Memory Bytes UInt8} {result : Result} {reply : Reply}

def Shows (m : Lib.Cells.Memory Bytes UInt8) (result : Result) (reply : Reply) : Prop :=
  result.Taken m ∧ result.toReply m = reply

theorem Shows.own (reply : Reply) : Shows m (.own reply) reply := ⟨trivial, rfl⟩

theorem Shows.later (h : Shows m result reply) (hm : m.Extends m') : Shows m' result reply := by
  obtain ⟨htaken, rfl⟩ := h
  cases result with
  | own reply => exact .own reply
  | bulk slice => exact ⟨hm.taken htaken, by rw [toReply, toReply, hm.read htaken]⟩
  | multiBulk slices =>
      refine ⟨fun slice hslice => hm.taken (htaken slice hslice), ?_⟩
      rw [toReply, toReply, List.map_congr_left]
      intro slice hslice
      cases slice with
      | none => rfl
      | some slice => rw [Option.map_some, Option.map_some, hm.read (htaken slice hslice)]

end Result

section

variable [LinearOrder σ] [Inhabited σ] {c : CommandName} {s t : Shared σ} {r : Reply}

omit [LinearOrder σ] [Inhabited σ] in
theorem Shared.Consistent.bulk {m : List Slice → Exec σ Reply} {key : Slice} (rest : List Slice) (hs : s.Consistent)
    (hm : AnswersStored env m) (hvalue : value (m (key :: rest)) s.world = some (.bulk (some b))) :
    Result.Shows s.memory (.bulk (s.stored (text key))) (.bulk (some b)) := by
  obtain ⟨key', rest', hargs, hstring⟩ := hm _ _ _ hvalue
  obtain ⟨rfl, rfl⟩ := List.cons.inj hargs
  obtain ⟨hread, htaken⟩ := hs.string hstring
  exact ⟨htaken, by rw [Result.toReply, hread]⟩

theorem Shared.result_spec (hs : s.Consistent) (ht : t.Consistent) (hextends : s.memory.Extends t.memory)
    (hvalue : value ((command env c).executor args) s.world = some r)
    (hfinal : final ((command env c).executor args) s.world = t.world) :
    Result.Shows t.memory (s.result env c args t r) r := by
  rw [result.eq_def]
  split
  · next b =>
      split
      · next key rest => exact (hs.bulk rest execGet_answersStored hvalue).later hextends
      · exact (hs.bulk _ execGetEX_answersStored hvalue).later hextends
      · exact (hs.bulk _ execGetSet_answersStored hvalue).later hextends
      · exact (hs.bulk _ execGetDel_answersStored hvalue).later hextends
      · next key rawStart rawEnd rest =>
          obtain ⟨start, end_, old, hstart, hend, hold, rfl⟩ := execGetRange_answers rest hvalue
          rw [hstart, hend, hold]
          obtain ⟨hread, htaken⟩ := hs.string hold
          refine Result.Shows.later ⟨fun a ha => htaken a (List.mem_of_mem_take (List.mem_of_mem_drop ha)), ?_⟩ hextends
          rw [Result.toReply, Lib.Cells.Memory.read, List.map_drop, List.map_take, ← hread]
          rfl
      · obtain ⟨hread, htaken⟩ := ht _ _ (hfinal ▸ execIncrByFloat_stores hvalue)
        exact ⟨htaken, by rw [Result.toReply, hread]⟩
      · exact .own _
  · next l =>
      split
      · have hl : value (execMGet env args) s.world = some (.multiBulk l) := hvalue
        rw [execMGet, value_bind, readStrings_value] at hl
        cases hl
        refine Result.Shows.later ⟨fun slice hslice => ?_, ?_⟩ hextends
        · obtain ⟨key, -, hkey⟩ := List.mem_map.mp hslice
          obtain ⟨b, hstring, rfl⟩ := Option.map_eq_some_iff.mp hkey
          exact (hs.string hstring).2
        · rw [Result.toReply, List.map_map]
          refine congrArg _ (List.map_congr_left fun key _ => ?_)
          cases hstring : s.world.string env (text key) with
          | none => simp [hstring]
          | some b => simp [hstring, (hs.string hstring).1]
      · exact .own _
  · exact .own _

variable {name : Slice} {line : CmdLine} {e : Reply}

theorem execWithLock_of_ok (h : Transaction.lookupCommand env name args = .ok c) :
    execWithLock env (name :: args) = (command env c).executor args := by
  rw [Transaction.lookupCommand] at h
  split at h
  · cases h
  · next c' hc =>
      split at h
      · next harity =>
          cases h
          simp only [execWithLock, findCommand, hc, harity, if_true]
          rfl
      · cases h

theorem execWithLock_of_error (h : Transaction.lookupCommand env name args = .error e) :
    execWithLock env (name :: args) = return e := by
  rw [Transaction.lookupCommand] at h
  split at h
  · next hc =>
      cases h
      simp only [execWithLock, findCommand, hc]
      rfl
  · next c' hc =>
      split at h
      · cases h
      · next harity =>
          cases h
          simp only [execWithLock, findCommand, hc, harity]
          rfl

def Overwrites : CmdLine → Prop
  | [] => False
  | name :: _ => ∃ c ∈ overwriting, cmdTable (toLower (text name)) = some c

theorem not_mem_overwriting (hline : ¬ Overwrites (name :: args))
    (h : Transaction.lookupCommand env name args = .ok c) : c ∉ overwriting := by
  rw [Transaction.lookupCommand] at h
  split at h
  · cases h
  · next c' hc =>
      split at h
      · cases h
        exact fun hmem => hline ⟨c, hmem, hc⟩
      · cases h

/-- The line has been run as on values, and the slices that were there have not changed. -/
structure Shared.Ran (env : Env σ) (s : Shared σ) (line : CmdLine) (p : Option Result × Shared σ) : Prop where
  world : p.2.world = final (execWithLock env line) s.world
  consistent : p.2.Consistent
  later : s.memory.Extends p.2.memory
  result : Option.Rel (Result.Shows p.2.memory) p.1 (value (execWithLock env line) s.world)

theorem Shared.ran_own (hs : s.Consistent) (hsame : final (execWithLock env line) s.world = s.world) :
    s.Ran env line ((value (execWithLock env line) s.world).map .own,
      { s with world := final (execWithLock env line) s.world }) where
  world := rfl
  consistent := by
    rw [hsame]
    exact hs
  later := .refl _
  result := by
    cases value (execWithLock env line) s.world with
    | none => exact .none
    | some r => exact .some (.own r)

theorem Shared.ran_settle {fits : Bool} {held : Option (List Cell)} {reply : Option Reply} (hs : s.Consistent)
    (hc : c ∉ overwriting)
    (hheld : s.Given c args held)
    (hline : execWithLock env line = (command env c).executor args)
    (hreply : value ((command env c).executor args) s.world = reply)
    (hw : final ((command env c).executor args) s.world = w) :
    s.Ran env line (reply.map (s.result env c args (s.settle env fits c args held reply w)),
      s.settle env fits c args held reply w) := by
  have ht := settle_consistent fits hs hc hheld hreply hw
  have hextends : s.memory.Extends (s.settle env fits c args held reply w).memory := settle_extends fits hc
  refine ⟨by rw [hline, hw]; rfl, ht, hextends, ?_⟩
  rw [hline, hreply]
  cases reply with
  | none => exact .none
  | some r => exact .some (result_spec hs ht hextends hreply hw)

theorem Shared.runLine_spec (fits : Bool) (held : Option (List Cell)) (hs : s.Consistent)
    (hline : ¬ Overwrites line)
    (hheld : ∀ slice, held = some slice → (∃ key, line = [some (bytes "SET"), key, some (s.memory.read slice)]) ∧
      s.memory.Taken slice) : s.Ran env line (s.runLine env fits held line) := by
  rw [runLine.eq_def]
  split
  · exact ran_own hs rfl
  · next name args =>
      split
      · next e he => exact ran_own hs (by rw [execWithLock_of_error he, final_pure])
      · next c hc =>
          have hrun := execWithLock_of_ok hc
          rw [hrun]
          apply ran_settle hs (not_mem_overwriting hline hc) ?_ hrun rfl rfl
          intro slice hslice
          obtain ⟨⟨key, hargs⟩, htaken⟩ := hheld slice hslice
          obtain ⟨rfl, rfl⟩ := List.cons.inj hargs
          cases hc
          exact ⟨rfl, ⟨key, rfl⟩, htaken⟩

end

end Traitor.Database