import Mathlib.Logic.Relation
import Traitor.LazyExpiry
import Traitor.Restart

namespace Traitor.Database

open Lib.Effects Lib.Strconv Protocol

variable {σ : Type} {env : Env σ} {P : Entity σ → Prop} {K : Set Bytes} {w w' : World σ} {key : Bytes}
  {e : Entity σ}

/-- One edit of a key of a set. An expiration is only set for a value, and a value is only put
that meets a rule. -/
inductive Edit (env : Env σ) (P : Entity σ → Prop) (K : Set Bytes) : World σ → World σ → Prop
  | quiet {w w' : World σ} (h : Quiet env w w') : Edit env P K w w'
  | log (w : World σ) (line : CmdLine) : Edit env P K w { w with aof := w.aof ++ [line] }
  | put (w : World σ) {key : Bytes} {e : Entity σ} (h : key ∈ K) (he : P e) :
      Edit env P K w { w with db := w.db.put key e }
  | remove (w : World σ) {key : Bytes} (h : key ∈ K) : Edit env P K w { w with db := w.db.remove key }
  | persist (w : World σ) {key : Bytes} (h : key ∈ K) : Edit env P K w { w with db := w.db.persist key }
  | expire {w : World σ} {key : Bytes} (h : key ∈ K) (hdata : (w.db.slot key).data ≠ none) (t : Int) :
      Edit env P K w { w with db := w.db.expire key t }

def Edits (env : Env σ) (P : Entity σ → Prop) (K : Set Bytes) : World σ → World σ → Prop :=
  Relation.ReflTransGen (Edit env P K)

instance : Std.Refl (Edits env P K) := ⟨fun _ => .refl⟩

instance : IsTrans (World σ) (Edits env P K) := ⟨fun _ _ _ h h' => h.trans h'⟩

theorem Edits.single (h : Edit env P K w w') : Edits env P K w w' := Relation.ReflTransGen.single h

theorem Edits.trans {w'' : World σ} (h : Edits env P K w w') (h' : Edits env P K w' w'') :
    Edits env P K w w'' := Relation.ReflTransGen.trans h h'

theorem Edits.edit {w'' : World σ} (h : Edits env P K w w') (hedit : Edit env P K w' w'') :
    Edits env P K w w'' := h.tail hedit

def DB.Whole (db : DB σ) : Prop := ∀ key, (db.slot key).Whole

theorem slot_of_quiet (h : Quiet env w w') (key : Bytes) :
    w'.db.slot key = w.db.slot key ∨ w'.db.slot key = .empty := by
  rcases h.2.2 key with hsame | hout
  · exact .inl (by rw [DB.slot, hsame.1, hsame.2]; rfl)
  · exact .inr (by rw [DB.slot, hout.2.1, hout.2.2]; rfl)

/-- What an edit makes of a key. -/
theorem Edit.slot (h : Edit env P K w w') (key : Bytes) :
    w'.db.slot key = w.db.slot key ∨ w'.db.slot key = .empty ∨
      (∃ e, P e ∧ w'.db.slot key = ⟨some e, (w.db.slot key).ttl⟩) ∨
      w'.db.slot key = ⟨(w.db.slot key).data, none⟩ ∨
      (w.db.slot key).data ≠ none ∧ ∃ t, w'.db.slot key = ⟨(w.db.slot key).data, some t⟩ := by
  cases h with
  | quiet hquiet => exact (slot_of_quiet hquiet key).imp_right .inl
  | log line => exact .inl rfl
  | @put key' e' hmem he =>
      rw [DB.slot_put]
      split
      · next hk => exact .inr (.inr (.inl ⟨e', he, hk ▸ rfl⟩))
      · exact .inl rfl
  | @remove key' hmem =>
      rw [DB.slot_remove]
      split
      · exact .inr (.inl rfl)
      · exact .inl rfl
  | @persist key' hmem =>
      rw [DB.slot_persist]
      split
      · next hk => exact .inr (.inr (.inr (.inl (hk ▸ rfl))))
      · exact .inl rfl
  | @expire key' hmem hdata t =>
      rw [DB.slot_expire]
      split
      · next hk =>
          subst hk
          exact .inr (.inr (.inr (.inr ⟨hdata, t, rfl⟩)))
      · exact .inl rfl

theorem Edits.whole (h : Edits env P K w w') (hw : w.db.Whole) : w'.db.Whole := by
  induction h with
  | refl => exact hw
  | tail _ hstep ih =>
      intro key
      rcases hstep.slot key with heq | heq | ⟨e, -, heq⟩ | heq | ⟨hdata, t, heq⟩
      · exact heq ▸ ih key
      · exact heq ▸ fun _ => rfl
      · exact heq ▸ nofun
      · exact heq ▸ fun _ => rfl
      · exact heq ▸ fun hnone => absurd hnone hdata

theorem Edits.of_quiet (h : Quiet env w w') : Edits env P K w w' := .single (.quiet h)

theorem edits_of_quiet {α : Type} {m : Exec σ α} (h : Moves (Quiet env) m) : Moves (Edits env P K) m :=
  fun w => wp_mono (h w) fun _ _ => .of_quiet

theorem put_edits (h : key ∈ K) (he : P e) : Moves (Edits env P K) (putEntity key e) :=
  fun w => .single (.put w h he)

theorem remove_edits (h : key ∈ K) : Moves (Edits env P K) (remove key) :=
  fun w => .single (.remove w h)

theorem log_edits (line : CmdLine) : Moves (Edits env P K) (addAof line) :=
  fun w => .single (.log w line)

theorem head_mem {key : Slice} {rest : List Slice} : text key ∈ (writeFirstKey (key :: rest)).1 := by
  simp [writeFirstKey]

theorem pairs_mem {args : List Slice} {p : Slice × Slice} (h : p ∈ pairs args) : text p.1 ∈ (prepareMSet args).1 :=
  List.mem_map_of_mem h

theorem edits_of_final {α : Type} {m : Exec σ α} (h : ∀ w, Edits env P K w (final m w)) :
    Moves (Edits env P K) m := fun w => (wp_iff m _ w).mpr (h w)

theorem evict_edits (w : World σ) (key : Bytes) :
    Edits env P K w { w with db := w.db.evict env key } :=
  .of_quiet ⟨rfl, DB.keeps_evict w.db key⟩

/-- The last edits of a command, the lines included. -/
theorem Edits.put_log (h : Edits env P K w w') (hkey : key ∈ K) (he : P e) (line : CmdLine) :
    Edits env P K w ⟨w'.db.put key e, w'.aof ++ [line]⟩ :=
  (h.edit (.put _ hkey he)).edit (.log _ line)

theorem Edits.persist_log (h : Edits env P K w w') (hkey : key ∈ K) (line : CmdLine) :
    Edits env P K w ⟨w'.db.persist key, w'.aof ++ [line]⟩ :=
  (h.edit (.persist _ hkey)).edit (.log _ line)

theorem Edits.expire_log (h : Edits env P K w w') (hkey : key ∈ K) (hdata : (w'.db.slot key).data ≠ none)
    (t : Int) (line : CmdLine) : Edits env P K w ⟨w'.db.expire key t, w'.aof ++ [line]⟩ :=
  (h.edit (.expire hkey hdata t)).edit (.log _ line)

/-- A value that is found is still there after the look. -/
theorem data_evict (h : (w.db.slot key).live env.now ≠ none) :
    ((w.db.evict env key).slot key).data ≠ none := by
  obtain ⟨e, he⟩ := Option.ne_none_iff_exists'.mp h
  rw [DB.slot_evict, if_pos rfl, Slot.evict_of_live h, Slot.live_data he]
  exact nofun

theorem live_of_string_some {s : Slot σ} {t : Int} {x : Bytes} (h : s.string t = .ok (some x)) :
    s.live t ≠ none := by
  intro hlive
  rw [Slot.string, hlive] at h
  cases h

section

variable (hstr : ∀ s, P (.str s))
include hstr

theorem afterEdit_edits (h : key ∈ K) (f : Slice → Option Slice) (line : CmdLine) :
    Edits env P K w (afterEdit env w key f line) := by
  rw [afterEdit]
  cases (w.db.slot key).string env.now with
  | error e => exact evict_edits w key
  | ok s =>
      dsimp only
      cases f s with
      | none => exact evict_edits w key
      | some v => exact (evict_edits w key).put_log h (hstr v) line

theorem execGetSet_edits {args : List Slice} (h : ∀ key ∈ (writeFirstKey args).1, key ∈ K) :
    Moves (Edits env P K) (execGetSet env args) := by
  rcases args with _ | ⟨key, _ | ⟨value, rest⟩⟩
  · exact .panics
  · exact .panics
  · have hkey : text key ∈ K := h _ head_mem
    refine edits_of_final fun w => ?_
    rw [execGetSet_final]
    dsimp only
    cases (w.db.slot (text key)).string env.now with
    | error e => exact evict_edits w _
    | ok s => exact ((evict_edits w _).edit (.put _ hkey (hstr value))).persist_log hkey _

theorem execSet_edits {args : List Slice} (h : ∀ key ∈ (writeFirstKey args).1, key ∈ K) :
    Moves (Edits env P K) (execSet env args) := by
  rcases args with _ | ⟨key, _ | ⟨value, options⟩⟩
  · exact .panics
  · exact .panics
  · have hkey : text key ∈ K := h _ head_mem
    refine edits_of_final fun w => ?_
    rw [execSet_final]
    cases setOptions .upsert unlimitedTTL options with
    | error e => exact .refl
    | ok p =>
        dsimp only
        have hput : Edits env P K w { w with db := w.db.put (text key) (.str value) } :=
          .single (.put w hkey (hstr value))
        split_ifs
        · have hexpire := hput.expire_log hkey (by simp) (after env p.2) (cmdLine3 "SET" [key, value])
          simpa using hexpire.edit (.log _ (makeExpireCmd (text key) (after env p.2)))
        · exact hput.persist_log hkey _
        · exact .refl

end

theorem execGetEX_edits {args : List Slice} (h : ∀ key ∈ (writeFirstKey args).1, key ∈ K) :
    Moves (Edits env P K) (execGetEX env args) := by
  rcases args with _ | ⟨key, options⟩
  · exact .panics
  · have hkey : text key ∈ K := h _ head_mem
    refine edits_of_final fun w => ?_
    have hevict : Edits env P K w { w with db := w.db.evict env (text key) } := evict_edits w (text key)
    rw [execGetEX_final]
    dsimp only
    cases hs : (w.db.slot (text key)).string env.now with
    | error e => exact hevict
    | ok s =>
        cases s with
        | none => exact hevict
        | some s =>
            dsimp only
            have hdata := data_evict (live_of_string_some hs)
            have hpersist : Edits env P K w ⟨if (getExParse unlimitedTTL options).1
                then (w.db.evict env (text key)).persist (text key)
                else w.db.evict env (text key), w.aof⟩ := by
              split
              · exact hevict.edit (.persist _ hkey)
              · exact hevict
            cases (getExParse unlimitedTTL options).2 with
            | error e => exact hpersist
            | ok ttl =>
                dsimp only
                split
                · exact hpersist
                · split
                  · refine hpersist.expire_log hkey ?_ _ _
                    split
                    · simpa using hdata
                    · exact hdata
                  · exact hpersist.persist_log hkey _

theorem expireCommand_edits (instant : Int → Int) {args : List Slice}
    (h : ∀ key ∈ (writeFirstKey args).1, key ∈ K) :
    Moves (Edits env P K) (expireCommand env instant args) := by
  rcases args with _ | ⟨key, _ | ⟨rawTime, rest⟩⟩
  · exact .panics
  · exact .panics
  · have hkey : text key ∈ K := h _ head_mem
    refine edits_of_final fun w => ?_
    rw [expireCommand_final]
    cases parseInt 64 (text rawTime) with
    | none => exact .refl
    | some n =>
        dsimp only
        split
        · exact evict_edits w _
        · next hlive => exact (evict_edits w _).expire_log hkey (data_evict hlive) _ _

theorem execPersist_edits {args : List Slice} (h : ∀ key ∈ (writeFirstKey args).1, key ∈ K) :
    Moves (Edits env P K) (execPersist env args) := by
  rcases args with _ | ⟨key, rest⟩
  · exact .panics
  · refine edits_of_final fun w => ?_
    rw [execPersist_final]
    dsimp only
    split
    · exact evict_edits w _
    · exact (evict_edits w _).persist_log (h _ head_mem) _

theorem getAs_edits {α : Type} (view : Entity σ → Option α) (key : Bytes) :
    Moves (Edits env P K) (getAs env view key) := edits_of_quiet (getAs_moves env view key)

theorem getAsString_edits (key : Bytes) : Moves (Edits env P K) (getAsString env key) :=
  edits_of_quiet (getAsString_moves env key)

theorem get_edits : Moves (Edits env P K) (get : Exec σ (World σ)) := fun _ => .refl

theorem has_edits (key : Bytes) : Moves (Edits env P K) (has key) := get_edits.map

theorem put_log_edits (h : key ∈ K) (he : P e) (line : CmdLine) (reply : Reply) :
    Moves (Edits env P K) (do
      putEntity key e
      addAof line
      return reply) :=
  (put_edits h he).bind fun _ => (log_edits _).bind fun _ => .pure _

theorem removes_edits {keys : List Bytes} (h : ∀ key ∈ keys, key ∈ K) :
    Moves (Edits env P K) (removes keys) := by
  induction keys with
  | nil => exact .pure _
  | cons key keys ih =>
      rw [List.forall_mem_cons] at h
      apply (has_edits key).bind
      intro b
      split
      · exact (remove_edits h.1).bind fun _ => (ih h.2).bind fun _ => .pure _
      · exact ih h.2

theorem execDel_edits {args : List Slice} (h : ∀ key ∈ (writeAllKeys args).1, key ∈ K) :
    Moves (Edits env P K) (execDel args) := by
  refine (removes_edits h).bind fun n => ?_
  split
  · exact (log_edits _).bind fun _ => .pure _
  · exact .pure _

theorem execGetDel_edits {args : List Slice} (h : ∀ key ∈ (writeFirstKey args).1, key ∈ K) :
    Moves (Edits env P K) (execGetDel env args) := by
  unfold execGetDel
  split
  · apply (getAsString_edits _).bind
    intro r
    split
    · exact .pure _
    · exact .pure _
    · exact (remove_edits (h _ head_mem)).bind fun _ => (log_edits _).bind fun _ => .pure _
  · exact .panics

theorem moveTTL_edits {v : World σ} {src dest : Bytes} (h : Edits env P K v w) (hsrc : src ∈ K)
    (hdest : dest ∈ K) (ttl : Option Int) (hdata : ttl ≠ none → (w.db.slot dest).data ≠ none) :
    wp (moveTTL src dest ttl) (fun _ w' => Edits env P K v w') w := by
  cases ttl with
  | none => exact h
  | some t =>
      have hpersist : Edits env P K v { w with db := (w.db.persist src).persist dest } :=
          (h.edit (.persist w hsrc)).edit (.persist _ hdest)
      refine hpersist.edit (.expire hdest ?_ t)
      have hvalue := hdata nofun
      rw [DB.slot_persist, if_pos rfl, DB.slot_persist]
      split
      · next hk => exact hk ▸ hvalue
      · exact hvalue

/-- The rule is met by what a key holds, and only a key without an expiration gets its own name. -/
structure Renamable (env : Env σ) (P : Entity σ → Prop) (w : World σ) (src dest : Bytes) : Prop where
  fits : ∀ e, w.db.live env src = some e → P e
  other : src = dest → w.db.live env src ≠ none → (w.db.slot src).ttl = none

theorem execRename_edits {src dest : Slice} (hsrc : text src ∈ K) (hdest : text dest ∈ K)
    (h : Renamable env P w (text src) (text dest)) :
    wp (execRename env [src, dest]) (fun _ w' => Edits env P K w w') w := by
  have hevict : Edits env P K w { w with db := w.db.evict env (text src) } := evict_edits w (text src)
  simp only [execRename, getTTL, wp_bind, wp_getEntity]
  cases hlive : w.db.live env (text src) with
  | none => exact hevict
  | some e =>
      have hne : w.db.live env (text src) ≠ none := by simp [hlive]
      simp only [DB.evict_of_live hlive, wp_bind, wp_get, wp_pure, putEntity, remove, wp_modifyDB, wp_addAof]
      have hremove : Edits env P K w { w with db := (w.db.put (text dest) e).remove (text src) } :=
        (Edits.single (.put w hdest (h.fits e hlive))).edit (.remove _ hsrc)
      refine wp_mono (moveTTL_edits hremove hsrc hdest _ fun httl => ?_) fun r w' hmoved => ?_
      · have hother : text dest ≠ text src := fun heq => httl (h.other heq.symm hne)
        simp [hother]
      · cases r with
        | none => exact hmoved
        | some _ => exact hmoved.edit (.log _ _)

theorem execRenameNx_edits {src dest : Slice} (rest : List Slice) (hsrc : text src ∈ K)
    (hdest : text dest ∈ K) (hfits : ∀ e, w.db.live env (text src) = some e → P e) :
    wp (execRenameNx env (src :: dest :: rest)) (fun _ w' => Edits env P K w w') w := by
  have hevict : Edits env P K w { w with db := w.db.evict env (text dest) } := evict_edits w (text dest)
  simp only [execRenameNx, getTTL, wp_bind, wp_getEntity]
  cases w.db.live env (text dest) with
  | some e => exact hevict
  | none =>
      have hevicts := hevict.trans (evict_edits { w with db := w.db.evict env (text dest) } (text src))
      simp only [wp_bind, wp_getEntity, DB.live_eq (DB.keeps_evict w.db (text dest) |>.2 (text src))]
      cases hlive : w.db.live env (text src) with
      | none => exact hevicts
      | some e =>
          have hkeys : ∀ key ∈ [text src, text dest], key ∈ K := by simp [hsrc, hdest]
          simp only [wp_bind, wp_get, wp_pure, putEntity, wp_modifyDB, wp_addAof]
          have hremoves : Moves (Edits env P K) (removes [text src, text dest]) := removes_edits hkeys
          refine wp_mono (hremoves _) fun r w' hedits => ?_
          have hremoved := hevicts.trans hedits
          cases r with
          | none => exact hremoved
          | some _ =>
              have hput := hremoved.edit (.put w' hdest (hfits e hlive))
              refine wp_mono (moveTTL_edits hput hsrc hdest _ fun _ => by simp) fun r w'' hmoved => ?_
              cases r with
              | none => exact hmoved
              | some _ => exact hmoved.edit (.log _ _)

section

variable (hstr : ∀ s, P (.str s)) {args : List Slice}
include hstr

theorem execSetNX_edits (h : ∀ key ∈ (writeFirstKey args).1, key ∈ K) :
    Moves (Edits env P K) (execSetNX args) := by
  unfold execSetNX
  split
  · refine Moves.bind ?_ fun _ => (log_edits _).bind fun _ => .pure _
    apply (has_edits _).bind
    intro b
    split
    · exact .pure _
    · exact (put_edits (h _ head_mem) (hstr _)).bind fun _ => .pure _
  · exact .panics

theorem setWithTTL_edits (unit : Int) (h : ∀ key ∈ (writeFirstKey args).1, key ∈ K) :
    Moves (Edits env P K) (setWithTTL env unit args) := by
  unfold setWithTTL
  split
  · next key ttl value rest =>
      split
      · exact .pure _
      · split
        · exact .pure _
        · intro w
          have hkey : text key ∈ K := h _ head_mem
          have hput : Edits env P K w { w with db := w.db.put (text key) (.str value) } :=
            .single (.put w hkey (hstr value))
          exact (hput.expire_log hkey (by simp) _ _).edit (.log _ _)
  · exact .panics

theorem putPairs_edits {l : List (Slice × Slice)} (h : ∀ p ∈ l, text p.1 ∈ K) :
    Moves (Edits env P K) (putPairs l) := by
  induction l with
  | nil => exact .pure _
  | cons p l ih =>
      rw [List.forall_mem_cons] at h
      exact (put_edits h.1 (hstr _)).bind fun _ => ih h.2

theorem execMSet_edits (h : ∀ key ∈ (prepareMSet args).1, key ∈ K) :
    Moves (Edits env P K) (execMSet args) := by
  rw [execMSet]
  split
  · exact .pure _
  · exact (putPairs_edits hstr fun p hp => h _ (pairs_mem hp)).bind fun _ =>
      (log_edits _).bind fun _ => .pure _

theorem execMSetNX_edits (h : ∀ key ∈ (prepareMSet args).1, key ∈ K) :
    Moves (Edits env P K) (execMSetNX env args) := by
  rw [execMSetNX]
  split
  · exact .pure _
  · apply (edits_of_quiet (anyExists_moves env _)).bind
    intro b
    split
    · exact .pure _
    · exact (putPairs_edits hstr fun p hp => h _ (pairs_mem hp)).bind fun _ =>
        (log_edits _).bind fun _ => .pure _

theorem execIncrByFloat_edits (h : ∀ key ∈ (writeFirstKey args).1, key ∈ K) :
    Moves (Edits env P K) (execIncrByFloat env args) := by
  unfold execIncrByFloat
  split
  · split
    · exact .pure _
    · apply (getAsString_edits _).bind
      intro r
      split
      · exact .pure _
      · exact put_log_edits (h _ head_mem) (hstr _) _ _
      · split
        · exact .pure _
        · exact put_log_edits (h _ head_mem) (hstr _) _ _
  · exact .panics

theorem execSetBit_edits (h : ∀ key ∈ (writeFirstKey args).1, key ∈ K) :
    Moves (Edits env P K) (execSetBit env args) := by
  unfold execSetBit
  split
  · split
    · exact .pure _
    · split
      · exact .pure _
      · apply (getAsString_edits _).bind
        intro r
        split
        · exact .pure _
        · split
          · exact (put_edits (h _ head_mem) (hstr _)).bind fun _ => .pure _
          · exact .panics
  · exact .panics

variable [LinearOrder σ] [Inhabited σ]

theorem editor_edits {c : CommandName} (hc : c ∈ editors) (h : ∀ key ∈ (writeFirstKey args).1, key ∈ K) :
    Moves (Edits env P K) ((command env c).executor args) := by
  refine edits_of_final fun w => ?_
  rw [editor_final hc]
  cases he : edited c args with
  | none => exact Edits.of_quiet (refl_of (Quiet env) w)
  | some p =>
      refine afterEdit_edits hstr (h _ ?_) _ _
      rw [writeFirstKey, edited_key he]
      exact List.mem_singleton.mpr rfl

def stringCommands : List CommandName :=
  [.set, .setNx, .setEX, .pSetEX, .mset, .mSetNX, .getEX, .getSet, .getDel, .incr, .incrBy, .incrByFloat,
    .decr, .decrBy, .append, .setRange, .setBit, .del, .expire, .expireAt, .pExpire, .pExpireAt, .persist]

theorem stringCommand_edits {c : CommandName} (hc : c ∈ stringCommands)
    (h : ∀ key ∈ ((command env c).prepare args).1, key ∈ K) :
    Moves (Edits env P K) ((command env c).executor args) := by
  simp only [stringCommands, List.mem_cons, List.not_mem_nil, or_false] at hc
  rcases hc with rfl | rfl | rfl | rfl | rfl | rfl | rfl | rfl | rfl | rfl | rfl | rfl | rfl | rfl |
    rfl | rfl | rfl | rfl | rfl | rfl | rfl | rfl | rfl
  · exact execSet_edits hstr h
  · exact execSetNX_edits hstr h
  · exact setWithTTL_edits hstr _ h
  · exact setWithTTL_edits hstr _ h
  · exact execMSet_edits hstr h
  · exact execMSetNX_edits hstr h
  · exact execGetEX_edits h
  · exact execGetSet_edits hstr h
  · exact execGetDel_edits h
  · exact editor_edits hstr (c := .incr) (by decide) h
  · exact editor_edits hstr (c := .incrBy) (by decide) h
  · exact execIncrByFloat_edits hstr h
  · exact editor_edits hstr (c := .decr) (by decide) h
  · exact editor_edits hstr (c := .decrBy) (by decide) h
  · exact editor_edits hstr (c := .append) (by decide) h
  · exact editor_edits hstr (c := .setRange) (by decide) h
  · exact execSetBit_edits hstr h
  · exact execDel_edits h
  · exact expireCommand_edits _ h
  · exact expireCommand_edits _ h
  · exact expireCommand_edits _ h
  · exact expireCommand_edits _ h
  · exact execPersist_edits h

end

end Traitor.Database
