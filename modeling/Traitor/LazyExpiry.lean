import Traitor.AlikeWrites

namespace Traitor.Database

open Lib.Effects Lib.Strconv Protocol

variable {σ : Type} {env : Env σ} {K : Set Bytes} {key : Bytes} {w : World σ}

def Expired (env : Env σ) (w : World σ) (key : Bytes) : Prop :=
  (w.db.slot key).data.isSome ∧ (w.db.slot key).isExpired env.now

def purge (env : Env σ) (w : World σ) : World σ :=
  { w with db := (env.choices.order w.db.data.keys).foldl (fun db key => db.evict env key) w.db }

theorem Slot.evict_evict (s : Slot σ) (t : Int) : (s.evict t).evict t = s.evict t := by
  unfold evict
  by_cases h : s.data.isSome = true ∧ s.isExpired t = true
  · simp [if_pos h, empty]
  · simp only [if_neg h]

theorem slot_foldl_evict (keys : List Bytes) (db : DB σ) (k : Bytes) :
    (keys.foldl (fun db key => db.evict env key) db).slot k =
      if k ∈ keys then (db.slot k).evict env.now else db.slot k := by
  induction keys generalizing db with
  | nil => simp
  | cons key keys ih =>
      rw [List.foldl_cons, ih, DB.slot_evict]
      by_cases hk : k = key
      · subst hk
        simp [Slot.evict_evict]
      · simp [hk]

theorem slot_purge (w : World σ) (k : Bytes) :
    (purge env w).db.slot k = (w.db.slot k).evict env.now := by
  have hpurge : (purge env w).db.slot k = _ := slot_foldl_evict _ w.db k
  rw [hpurge]
  split
  · rfl
  · rename_i hnone
    rw [env.choices.mem_order, Finmap.mem_keys, ← Finmap.lookup_isSome] at hnone
    rw [Slot.evict, if_neg]
    exact fun h => hnone h.1

theorem evict_of_expired (h : Expired env w key) : (w.db.slot key).evict env.now = .empty := if_pos h

theorem slot_purge_of_not_expired (h : ¬ Expired env w key) :
    (purge env w).db.slot key = w.db.slot key := (slot_purge w key).trans (if_neg h)

theorem slot_purge_of_expired (h : Expired env w key) : (purge env w).db.slot key = .empty :=
  (slot_purge w key).trans (evict_of_expired h)

theorem purge_similar (w : World σ) :
    Similar env {key | ¬ Expired env w key} w (purge env w) :=
  ⟨fun key => by rw [slot_purge, Slot.evict_evict], fun _ h => (slot_purge_of_not_expired h).symm⟩

/-- The order in which the keys are listed does not count. -/
def SameReply (c : CommandName) (r r' : Option Reply) : Prop :=
  r = r' ∨ c = .keys ∧ ∃ l l', r = some (.multiBulk l) ∧ r' = some (.multiBulk l') ∧ l.Perm l'

section

variable [LinearOrder σ] [Inhabited σ]

/-- The command gives the same reply, and leaves the same keys that are not expired, as in
the database without the expired keys. -/
def Transparent (env : Env σ) (c : CommandName) (args : List Slice) (w : World σ) : Prop :=
  let m := (command env c).executor args
  SameReply c (value m w) (value m (purge env w)) ∧
    ∀ key, ((final m w).db.slot key).evict env.now =
      ((final m (purge env w)).db.slot key).evict env.now

end

def Stores (m : Exec σ Calculated) (w : World σ) : Prop := ∃ s, value m w = some (.result (some s))

/-- An expired key is taken for one that is there, or leaves its expiration to a new value. -/
def Mistakes (env : Env σ) (w : World σ) : CommandName → List Slice → Prop
  | .set, key :: _ :: options =>
      match setOptions .upsert unlimitedTTL options with
      | .ok (.insert, _) | .ok (.update, _) => Expired env w (text key)
      | _ => False
  | .setNx, key :: _ :: _ => Expired env w (text key)
  | .mset, args => args.length % 2 = 0 ∧ ∃ p ∈ pairs args, Expired env w (text p.1)
  | .del, args => ∃ key ∈ args, Expired env w (text key)
  | .rename, [src, dest] =>
      Expired env w (text dest) ∧ w.db.live env (text src) ≠ none ∧ (w.db.slot (text src)).ttl = none
  | .keys, pattern :: _ => ∃ isMatch, env.lib.compilePattern (text pattern) = some isMatch ∧
      ∃ key, Expired env w key ∧ isMatch key
  | .sInterStore, dest :: keys => Expired env w (text dest) ∧ text dest ∉ keys.map text ∧
      Stores (interLoop env none (keys.map text)) w
  | .sDiffStore, dest :: keys => Expired env w (text dest) ∧ text dest ∉ keys.map text ∧
      Stores (diffLoop env true none (keys.map text)) w
  | _, _ => False

section

variable [LinearOrder σ] [Inhabited σ] {c : CommandName} {args : List Slice}

theorem transparent_of_similar {m : Exec σ Reply} (hm : (command env c).executor args = m)
    (h : value m w = value m (purge env w) ∧ Similar env K (final m w) (final m (purge env w))) :
    Transparent env c args w := by
  subst hm
  exact ⟨.inl h.1, h.2.1⟩

theorem transparent_of_direct (h : ∀ key ∈ direct c args, ¬ Expired env w key) (hc : c ≠ .keys) :
    Transparent env c args w :=
  transparent_of_similar rfl
    (command_alike c args h (fun h => absurd h hc) w (purge env w) (purge_similar w))

omit [LinearOrder σ] [Inhabited σ] in
theorem not_expired_of_direct (hc : c ∈ [CommandName.set, .setNx, .mset, .del])
    (h : ¬ Mistakes env w c args) : ∀ key ∈ direct c args, ¬ Expired env w key := by
  simp only [List.mem_cons, List.not_mem_nil, or_false] at hc
  rcases hc with rfl | rfl | rfl | rfl
  · rcases args with _ | ⟨key, _ | ⟨value, options⟩⟩
    · simp [direct]
    · simp [direct]
    · simp only [Mistakes, direct] at h ⊢
      split at h <;> simp_all
  · rcases args with _ | ⟨key, _ | ⟨value, rest⟩⟩
    · simp [direct]
    · simp [direct]
    · simpa [Mistakes, direct] using h
  · intro key hkey he
    simp only [direct] at hkey
    split at hkey
    · rename_i heven
      obtain ⟨p, hp, rfl⟩ := List.mem_map.mp hkey
      exact h ⟨heven, p, hp, he⟩
    · simp at hkey
  · intro key hkey he
    obtain ⟨arg, harg, rfl⟩ := List.mem_map.mp hkey
    exact h ⟨arg, harg, he⟩

omit [LinearOrder σ] [Inhabited σ] in
/-- What follows a program that does the same, for the value it gives. -/
theorem similar_bind {α β : Type} {m : Exec σ α} {f : α → Exec σ β} {w' : World σ}
    (hm : value m w = value m w' ∧ Similar env K (final m w) (final m w'))
    (hf : ∀ a, value m w = some a → value (f a) (final m w) = value (f a) (final m w') ∧
      Similar env K (final (f a) (final m w)) (final (f a) (final m w'))) :
    value (m >>= f) w = value (m >>= f) w' ∧ Similar env K (final (m >>= f) w) (final (m >>= f) w') := by
  rw [value_bind, value_bind, final_bind, final_bind, ← hm.1]
  cases hv : value m w with
  | none => exact ⟨rfl, hm.2⟩
  | some a => exact hf a hv

/-- A store after a loop over keys, of which a result is only stored over no expired key. -/
theorem storeLoop_transparent {m : Exec σ Calculated} {f : Calculated → Exec σ Reply} (dest : Slice)
    {keys : List Slice} (hm : ∀ K, Relates (Similar env K)
      (fun r => Similar env (lookedAt K (keys.map text) r)) m)
    (hf : ∀ r K, (∀ s, r = .result (some s) → text dest ∈ K) → Alike env K (f r))
    (hc : (command env c).executor args = m >>= f)
    (h : Expired env w (text dest) → text dest ∈ keys.map text ∨ ¬ Stores m w) :
    Transparent env c args w := by
  let K := {key | ¬ Expired env w key}
  obtain ⟨hvalue, hfinal⟩ := hm K w (purge env w) (purge_similar w)
  refine transparent_of_similar (K := K) hc (similar_bind ⟨hvalue, hfinal.anti (subset_lookedAt _)⟩ ?_)
  intro r hr
  rw [hr] at hfinal
  obtain ⟨hvalue', hfinal'⟩ := hf r (lookedAt K (keys.map text) (some r)) (fun s hs => by
    subst hs
    by_cases he : Expired env w (text dest)
    · exact .inr ((h he).resolve_right (not_not.mpr ⟨s, hr⟩))
    · exact .inl he) _ _ hfinal
  exact ⟨hvalue', hfinal'.anti (subset_lookedAt _)⟩

theorem execSInterStore_transparent {dest : Slice} {keys : List Slice}
    (h : ¬ Mistakes env w .sInterStore (dest :: keys)) :
    Transparent env .sInterStore (dest :: keys) w := by
  refine storeLoop_transparent dest (fun K => interLoop_looks none (keys.map text)) ?_ rfl ?_
  · intro r K hr
    split
    · exact .pure _
    · exact (remove_alike _).bind fun _ => .pure _
    · exact .panics
    · exact storeSet_alike _ _ _ _ (hr _ rfl)
  · intro he
    by_contra hno
    exact h ⟨he, not_or.mp hno |>.1, not_not.mp (not_or.mp hno).2⟩

theorem execSDiffStore_transparent {dest : Slice} {keys : List Slice}
    (h : ¬ Mistakes env w .sDiffStore (dest :: keys)) :
    Transparent env .sDiffStore (dest :: keys) w := by
  refine storeLoop_transparent dest (fun K => diffLoop_looks true none (keys.map text)) ?_ rfl ?_
  · intro r K hr
    split
    · exact .pure _
    · exact (remove_alike _).bind fun _ => .pure _
    · exact (remove_alike _).bind fun _ => .pure _
    · exact storeSet_alike _ _ _ _ (hr _ rfl)
  · intro he
    by_contra hno
    exact h ⟨he, not_or.mp hno |>.1, not_not.mp (not_or.mp hno).2⟩

omit [LinearOrder σ] [Inhabited σ] in
theorem run_iff {α : Type} {m : Exec σ α} {r : Option α} {w' : World σ}
    (h : wp m (fun r' w'' => r' = r ∧ w'' = w') w) : value m w = r ∧ final m w = w' :=
  (wp_iff m _ w).mp h

omit [LinearOrder σ] [Inhabited σ] in
theorem execRename_of_none {src : Slice} (dest : Slice) (h : w.db.live env (text src) = none) :
    value (execRename env [src, dest]) w = some (errReply "no such key") ∧
      final (execRename env [src, dest]) w = { w with db := w.db.evict env (text src) } := by
  apply run_iff
  simp [execRename, wp_getEntity, h]

omit [LinearOrder σ] [Inhabited σ] in
theorem execRename_of_some {src dest : Slice} {e : Entity σ}
    (h : w.db.live env (text src) = some e) (hne : text src ≠ text dest) :
    value (execRename env [src, dest]) w = some .ok ∧ ∀ k,
      (final (execRename env [src, dest]) w).db.slot k =
        if k = text dest then ⟨some e, (w.db.slot (text src)).ttl <|> (w.db.slot (text dest)).ttl⟩
        else if k = text src then .empty else w.db.slot k := by
  have hevict : w.db.evict env (text src) = w.db := DB.evict_of_live h
  have httl : w.db.ttlMap.lookup (text src) = (w.db.slot (text src)).ttl := rfl
  refine (wp_iff _ (fun r w' => r = some Reply.ok ∧ ∀ k, w'.db.slot k =
    if k = text dest then ⟨some e, (w.db.slot (text src)).ttl <|> (w.db.slot (text dest)).ttl⟩
    else if k = text src then .empty else w.db.slot k) w).mp ?_
  simp only [execRename, wp_bind, wp_getEntity, h, getTTL, wp_get, wp_pure, hevict, httl, putEntity,
    remove, wp_modifyDB]
  cases (w.db.slot (text src)).ttl with
  | none =>
      refine ⟨trivial, fun k => ?_⟩
      by_cases hk : k = text dest
      · simp [hk, hne.symm]
      · simp [hk]
  | some t =>
      refine ⟨trivial, fun k => ?_⟩
      by_cases hk : k = text dest
      · simp [hk, hne.symm]
      · by_cases hs : k = text src <;> simp [hk, hs, hne, Slot.empty]

omit [LinearOrder σ] [Inhabited σ] in
theorem live_purge (w : World σ) (key : Bytes) : (purge env w).db.live env key = w.db.live env key :=
  ((purge_similar w).live_eq key).symm

omit [LinearOrder σ] [Inhabited σ] in
theorem not_expired_of_live (h : w.db.live env key ≠ none) : ¬ Expired env w key := by
  rintro ⟨-, he⟩
  rw [DB.live_slot, Slot.live, if_pos he] at h
  exact h rfl

theorem execRename_transparent {src dest : Slice} (h : ¬ Mistakes env w .rename [src, dest]) :
    Transparent env .rename [src, dest] w := by
  by_cases he : Expired env w (text dest)
  · cases hlive : w.db.live env (text src) with
    | none =>
        obtain ⟨hvalue, hfinal⟩ := execRename_of_none dest hlive
        obtain ⟨hvalue', hfinal'⟩ := execRename_of_none dest ((live_purge w _).trans hlive)
        have hpurge : Similar env {key | ¬ Expired env w key} w (purge env w) := purge_similar w
        have hsimilar := evict_similar hpurge (text src)
        rw [← hfinal, ← hfinal'] at hsimilar
        exact transparent_of_similar rfl ⟨hvalue.trans hvalue'.symm, hsimilar⟩
    | some e =>
        have hsrc : ¬ Expired env w (text src) := not_expired_of_live (by simp [hlive])
        have hne : text src ≠ text dest := fun heq => hsrc (heq ▸ he)
        obtain ⟨t, ht⟩ : ∃ t, (w.db.slot (text src)).ttl = some t := by
          refine Option.ne_none_iff_exists'.mp fun hn => h ⟨he, by simp [hlive], hn⟩
        obtain ⟨hvalue, hfinal⟩ := execRename_of_some hlive hne
        obtain ⟨hvalue', hfinal'⟩ := execRename_of_some ((live_purge w _).trans hlive) hne
        refine ⟨.inl (hvalue.trans hvalue'.symm), fun k => ?_⟩
        have hslot := hfinal k
        have hslot' := hfinal' k
        rw [slot_purge_of_not_expired hsrc, ht] at hslot'
        rw [ht] at hslot
        refine (congrArg (Slot.evict · env.now) hslot).trans
          (Eq.trans ?_ (congrArg (Slot.evict · env.now) hslot').symm)
        split
        · rfl
        · split
          · rfl
          · rw [slot_purge, Slot.evict_evict]
  · exact transparent_of_direct (by simpa [direct] using he) (by decide)

omit [LinearOrder σ] [Inhabited σ] in
theorem execKeys_run (env : Env σ) (pattern : Slice) (rest : List Slice) (w : World σ) :
    value (execKeys env (pattern :: rest)) w =
        some (match env.lib.compilePattern (text pattern) with
          | none => errReply "ERR illegal wildcard"
          | some isMatch =>
              .multiBulk (((env.choices.order w.db.data.keys).filter isMatch).map some)) ∧
      final (execKeys env (pattern :: rest)) w = w := by
  apply run_iff
  simp only [execKeys]
  cases env.lib.compilePattern (text pattern) <;> simp

omit [LinearOrder σ] [Inhabited σ] in
theorem mem_keys_iff (w : World σ) (key : Bytes) :
    key ∈ w.db.data.keys ↔ (w.db.slot key).data.isSome := by
  rw [Finmap.mem_keys, ← Finmap.lookup_isSome]
  rfl

omit [LinearOrder σ] [Inhabited σ] in
theorem mem_keys_purge (w : World σ) (key : Bytes) :
    key ∈ (purge env w).db.data.keys ↔ key ∈ w.db.data.keys ∧ ¬ Expired env w key := by
  rw [mem_keys_iff, mem_keys_iff]
  by_cases he : Expired env w key
  · simp [slot_purge_of_expired he, Slot.empty, he]
  · simp [slot_purge_of_not_expired he, he]

omit [LinearOrder σ] [Inhabited σ] in
theorem perm_keys_iff (env : Env σ) (w : World σ) (isMatch : Bytes → Bool) :
    (((env.choices.order w.db.data.keys).filter isMatch).map (some (α := Bytes))).Perm
        (((env.choices.order (purge env w).db.data.keys).filter isMatch).map some) ↔
      ∀ key, Expired env w key → isMatch key = false := by
  have hnodup (s : Finset Bytes) :
      (((env.choices.order s).filter isMatch).map (some (α := Bytes))).Nodup :=
    ((env.choices.order_nodup s).filter _).map (Option.some_injective _)
  rw [List.perm_ext_iff_of_nodup (hnodup _) (hnodup _)]
  have hmem (s : Finset Bytes) (o : Option Bytes) :
      o ∈ ((env.choices.order s).filter isMatch).map some ↔ ∃ key ∈ s, isMatch key ∧ some key = o := by
    simp [env.choices.mem_order, and_assoc]
  simp only [hmem, mem_keys_purge]
  constructor
  · intro h key he
    by_contra hmatch
    obtain ⟨k, ⟨-, hk⟩, -, hkey⟩ := (h (some key)).mp
      ⟨key, (mem_keys_iff w key).mpr he.1, by simpa using hmatch, rfl⟩
    exact hk (Option.some.inj hkey ▸ he)
  · rintro h o
    constructor
    · rintro ⟨key, hkey, hmatch, rfl⟩
      refine ⟨key, ⟨hkey, fun he => ?_⟩, hmatch, rfl⟩
      simp [h key he] at hmatch
    · rintro ⟨key, ⟨hkey, -⟩, hmatch, rfl⟩
      exact ⟨key, hkey, hmatch, rfl⟩

theorem execKeys_transparent_iff (pattern : Slice) (rest : List Slice) :
    Transparent env .keys (pattern :: rest) w ↔ ¬ Mistakes env w .keys (pattern :: rest) := by
  obtain ⟨hvalue, hfinal⟩ := execKeys_run env pattern rest w
  obtain ⟨hvalue', hfinal'⟩ := execKeys_run env pattern rest (purge env w)
  have hslots : ∀ key, ((final (execKeys env (pattern :: rest)) w).db.slot key).evict env.now =
      ((final (execKeys env (pattern :: rest)) (purge env w)).db.slot key).evict env.now := by
    rw [hfinal, hfinal']
    exact (purge_similar w).1
  have hreply : Transparent env .keys (pattern :: rest) w ↔
      SameReply .keys (value (execKeys env (pattern :: rest)) w)
        (value (execKeys env (pattern :: rest)) (purge env w)) := and_iff_left hslots
  rw [hreply, hvalue, hvalue']
  cases hp : env.lib.compilePattern (text pattern) with
  | none => simp [SameReply, Mistakes, hp]
  | some isMatch =>
      have hiff := perm_keys_iff env w isMatch
      constructor
      · rintro hsame ⟨isMatch', hm, key, he, hmatch⟩
        obtain rfl := Option.some.inj (hp.symm.trans hm)
        have hperm : (((env.choices.order w.db.data.keys).filter isMatch).map (some (α := Bytes))).Perm
            (((env.choices.order (purge env w).db.data.keys).filter isMatch).map some) := by
          rcases hsame with heq | ⟨-, l, l', hl, hl', hperm⟩
          · exact .of_eq (Reply.multiBulk.inj (Option.some.inj heq))
          · rw [Reply.multiBulk.inj (Option.some.inj hl), Reply.multiBulk.inj (Option.some.inj hl')]
            exact hperm
        simp [hiff.mp hperm key he] at hmatch
      · intro hno
        refine .inr ⟨rfl, _, _, rfl, rfl, hiff.mpr fun key he => ?_⟩
        by_contra hmatch
        exact hno ⟨isMatch, hp, key, he, by simpa using hmatch⟩

omit [LinearOrder σ] [Inhabited σ] in
theorem execSet_value {key value : Slice} {options : List Slice} {policy : Policy} {ttl : Int}
    (ho : setOptions .upsert unlimitedTTL options = .ok (policy, ttl)) (w : World σ) :
    Lib.Effects.value (execSet env (key :: value :: options)) w =
      some (if policy.allows (w.db.slot (text key)).data.isSome then .ok else .nullBulk) := by
  refine (wp_iff _ (fun r _ => r = some (if policy.allows (w.db.slot (text key)).data.isSome
    then Reply.ok else .nullBulk)) w).mp ?_
  simp only [execSet, ho, wp_bind, wp_putByPolicy]
  by_cases hallows : policy.allows (w.db.slot (text key)).data.isSome = true
  · by_cases httl : ttl = unlimitedTTL <;> simp [hallows, httl, expire, persist]
  · simp [hallows]

theorem not_transparent_of_reply {m : Exec σ Reply} (hm : (command env c).executor args = m)
    (hc : c ≠ .keys) (h : value m w ≠ value m (purge env w)) : ¬ Transparent env c args w := by
  subst hm
  rintro ⟨heq | ⟨hkeys, -⟩, -⟩
  · exact h heq
  · exact hc hkeys

theorem not_transparent_of_slot (key : Bytes) {m : Exec σ Reply} (hm : (command env c).executor args = m)
    (h : ((final m w).db.slot key).evict env.now ≠
      ((final m (purge env w)).db.slot key).evict env.now) : ¬ Transparent env c args w := by
  subst hm
  exact fun ht => h (ht.2 key)

theorem execSet_not_transparent (h : Mistakes env w .set args) : ¬ Transparent env .set args w := by
  rcases args with _ | ⟨key, _ | ⟨value, options⟩⟩
  · exact h.elim
  · exact h.elim
  · simp only [Mistakes] at h
    split at h
    · rename_i ttl ho
      apply not_transparent_of_reply rfl (by decide)
      rw [command, execSet_value ho, execSet_value ho, slot_purge_of_expired h]
      simp [Policy.allows, h.1, Slot.empty]
    · rename_i ttl ho
      apply not_transparent_of_reply rfl (by decide)
      rw [command, execSet_value ho, execSet_value ho, slot_purge_of_expired h]
      simp [Policy.allows, h.1, Slot.empty]
    · exact h.elim

omit [LinearOrder σ] [Inhabited σ] in
theorem execSetNX_value (key value : Slice) (rest : List Slice) (w : World σ) :
    Lib.Effects.value (execSetNX (key :: value :: rest)) w =
      some (.int (if (w.db.slot (text key)).data.isSome then 0 else 1)) := by
  have hdata : w.db.data.lookup (text key) = (w.db.slot (text key)).data := rfl
  refine (wp_iff _ (fun r _ => r = some (Reply.int (if (w.db.slot (text key)).data.isSome
    then 0 else 1))) w).mp ?_
  simp only [execSetNX, putIfAbsent, has, wp_bind, wp_get, wp_pure, hdata]
  cases (w.db.slot (text key)).data.isSome <;> simp [putEntity]

theorem execSetNX_not_transparent (h : Mistakes env w .setNx args) :
    ¬ Transparent env .setNx args w := by
  rcases args with _ | ⟨key, _ | ⟨value, rest⟩⟩
  · exact h.elim
  · exact h.elim
  · have he : Expired env w (text key) := h
    apply not_transparent_of_reply rfl (by decide)
    rw [command, execSetNX_value, execSetNX_value, slot_purge_of_expired he]
    simp [he.1, Slot.empty]

omit [LinearOrder σ] [Inhabited σ] in
theorem putPairs_slot (l : List (Slice × Slice)) (w : World σ) (k : Bytes) :
    ((final (putPairs l) w).db.slot k).ttl = (w.db.slot k).ttl ∧
      (((final (putPairs l) w).db.slot k).data.isSome ↔
        (w.db.slot k).data.isSome ∨ ∃ p ∈ l, text p.1 = k) := by
  induction l generalizing w with
  | nil => exact ⟨rfl, by simp [putPairs, final, Pure.pure, EStateM.pure]⟩
  | cons p l ih =>
      have hcons : final (putPairs (p :: l)) w =
          final (putPairs l) { w with db := w.db.put (text p.1) (.str p.2) } := rfl
      obtain ⟨httl, hdata⟩ := ih { w with db := w.db.put (text p.1) (.str p.2) }
      rw [hcons, httl, hdata, DB.slot_put]
      by_cases hk : k = text p.1
      · simp [hk]
      · simp [hk, Ne.symm hk]

omit [LinearOrder σ] [Inhabited σ] in
theorem putPairs_value (l : List (Slice × Slice)) (w : World σ) :
    value (putPairs l) w = some ⟨⟩ := by
  induction l generalizing w with
  | nil => rfl
  | cons p l ih => exact ih { w with db := w.db.put (text p.1) (.str p.2) }

omit [LinearOrder σ] [Inhabited σ] in
theorem execMSet_db {args : List Slice} (h : args.length % 2 = 0) (w : World σ) :
    (final (execMSet args) w).db = (final (putPairs (pairs args)) w).db := by
  rw [execMSet, if_neg (by omega), final_bind, putPairs_value]
  rfl

/-- The new value is gone with the old expiration. -/
theorem execMSet_not_transparent (h : Mistakes env w .mset args) : ¬ Transparent env .mset args w := by
  obtain ⟨heven, p, hp, he⟩ := h
  apply not_transparent_of_slot (text p.1) (m := execMSet args) rfl
  rw [execMSet_db heven, execMSet_db heven]
  obtain ⟨httl, hdata⟩ := putPairs_slot (pairs args) w (text p.1)
  obtain ⟨httl', hdata'⟩ := putPairs_slot (pairs args) (purge env w) (text p.1)
  rw [slot_purge_of_expired he] at httl'
  have hthere := hdata.mpr (.inr ⟨p, hp, rfl⟩)
  have hthere' := hdata'.mpr (.inr ⟨p, hp, rfl⟩)
  have hexpired : ((final (putPairs (pairs args)) w).db.slot (text p.1)).isExpired env.now = true := by
    rw [Slot.isExpired, httl]
    exact he.2
  have hkept : ((final (putPairs (pairs args)) (purge env w)).db.slot (text p.1)).isExpired env.now =
      false := by
    rw [Slot.isExpired, httl']
    rfl
  rw [Slot.evict, if_pos ⟨hthere, hexpired⟩, Slot.evict, if_neg (by simp [hkept])]
  intro hslot
  rw [← hslot] at hthere'
  simp [Slot.empty] at hthere'

omit [LinearOrder σ] [Inhabited σ] in
theorem removes_value (key : Bytes) (keys : List Bytes) (w : World σ) :
    value (removes (key :: keys)) w =
      if (w.db.slot key).data.isSome
      then (value (removes keys) { w with db := w.db.remove key }).map (1 + ·)
      else value (removes keys) w := by
  have hhas : value (has key) w = some (w.db.slot key).data.isSome := rfl
  have hfinal : final (has key) w = w := rfl
  rw [removes, value_bind, hhas, hfinal]
  cases (w.db.slot key).data.isSome with
  | false => rfl
  | true =>
      have hremove : final (remove key) w = { w with db := w.db.remove key } := rfl
      simp only [Option.bind_some, if_true]
      rw [value_bind, hremove]
      change value (removes keys >>= fun n => pure (1 + n)) { w with db := w.db.remove key } = _
      rw [value_bind]
      cases value (removes keys) { w with db := w.db.remove key } <;> rfl

omit [LinearOrder σ] [Inhabited σ] in
theorem expired_remove {w : World σ} {k : Bytes} (h : Expired env w k) (hk : k ≠ key) :
    Expired env { w with db := w.db.remove key } k := by
  rw [Expired, DB.slot_remove, if_neg hk]
  exact h

omit [LinearOrder σ] [Inhabited σ] in
/-- Expired keys are counted as removed. -/
theorem removes_purged (keys : List Bytes) {w w' : World σ}
    (h : ∀ k, w'.db.slot k = (w.db.slot k).evict env.now) :
    ∃ n n', value (removes keys) w = some n ∧ value (removes keys) w' = some n' ∧ n' ≤ n ∧
      ((∃ key ∈ keys, Expired env w key) → n' < n) := by
  induction keys generalizing w w' with
  | nil => exact ⟨0, 0, rfl, rfl, le_rfl, by simp⟩
  | cons key keys ih =>
      rw [removes_value, removes_value]
      by_cases he : Expired env w key
      · have hslots : ∀ k, w'.db.slot k = ((w.db.remove key).slot k).evict env.now := by
          intro k
          rw [DB.slot_remove, h]
          split
          · rename_i hk
            subst hk
            exact evict_of_expired he
          · rfl
        obtain ⟨n, n', hn, hn', hle, -⟩ := ih (w := { w with db := w.db.remove key }) hslots
        have hgone : (w'.db.slot key).data.isSome = false := by
          rw [h, evict_of_expired he]
          rfl
        rw [if_pos he.1, hn, hgone, if_neg Bool.false_ne_true, hn']
        exact ⟨1 + n, n', rfl, rfl, by omega, fun _ => by omega⟩
      · have hsame : w'.db.slot key = w.db.slot key := (h key).trans (if_neg he)
        rw [hsame]
        by_cases hs : (w.db.slot key).data.isSome = true
        · let removed (w : World σ) : World σ := { w with db := w.db.remove key }
          have hslots : ∀ k, (removed w').db.slot k = ((removed w).db.slot k).evict env.now := by
            intro k
            rw [DB.slot_remove, DB.slot_remove]
            split
            · rfl
            · exact h k
          obtain ⟨n, n', hn, hn', hle, hlt⟩ := ih hslots
          rw [if_pos hs, if_pos hs, hn, hn']
          refine ⟨1 + n, 1 + n', rfl, rfl, by omega, ?_⟩
          rintro ⟨k, hk, hek⟩
          have hne : k ≠ key := fun heq => he (heq ▸ hek)
          have := hlt ⟨k, (List.mem_cons.mp hk).resolve_left hne, expired_remove hek hne⟩
          omega
        · obtain ⟨n, n', hn, hn', hle, hlt⟩ := ih h
          rw [if_neg hs, if_neg hs]
          refine ⟨n, n', hn, hn', hle, ?_⟩
          rintro ⟨k, hk, hek⟩
          have hne : k ≠ key := fun heq => he (heq ▸ hek)
          exact hlt ⟨k, (List.mem_cons.mp hk).resolve_left hne, hek⟩

omit [LinearOrder σ] [Inhabited σ] in
theorem execDel_value (args : List Slice) (w : World σ) {n : Int}
    (hn : value (removes (args.map text)) w = some n) : value (execDel args) w = some (.int n) := by
  rw [execDel, value_bind, hn, Option.bind_some]
  split <;> rfl

theorem execDel_not_transparent (h : Mistakes env w .del args) : ¬ Transparent env .del args w := by
  obtain ⟨arg, harg, he⟩ := h
  have hpurge : ∀ k, (purge env w).db.slot k = (w.db.slot k).evict env.now := slot_purge w
  obtain ⟨n, n', hn, hn', -, hlt⟩ := removes_purged (args.map text) hpurge
  have := hlt ⟨text arg, List.mem_map_of_mem harg, he⟩
  apply not_transparent_of_reply rfl (by decide)
  rw [command, execDel_value args w hn, execDel_value args _ hn']
  simp only [ne_eq, Option.some.injEq, Reply.int.injEq]
  omega

/-- The entity moved is gone with the expiration of the key that it is moved to. -/
theorem execRename_not_transparent (h : Mistakes env w .rename args) :
    ¬ Transparent env .rename args w := by
  rcases args with _ | ⟨src, _ | ⟨dest, _ | ⟨more, rest⟩⟩⟩
  · exact h.elim
  · exact h.elim
  · obtain ⟨he, hlive, httl⟩ := h
    obtain ⟨e, hlive⟩ := Option.ne_none_iff_exists'.mp hlive
    have hsrc : ¬ Expired env w (text src) := not_expired_of_live (by simp [hlive])
    have hne : text src ≠ text dest := fun heq => hsrc (heq ▸ he)
    apply not_transparent_of_slot (text dest) (m := execRename env [src, dest]) rfl
    rw [(execRename_of_some hlive hne).2, (execRename_of_some ((live_purge w _).trans hlive) hne).2,
      if_pos rfl, if_pos rfl, slot_purge_of_not_expired hsrc, slot_purge_of_expired he, httl]
    have hexpired := he.2
    rw [Slot.isExpired] at hexpired
    simp [Slot.evict, Slot.isExpired, hexpired, Slot.empty]
  · exact h.elim

def Untouched (key : Bytes) (w w' : World σ) : Prop := w'.db.slot key = w.db.slot key

omit [LinearOrder σ] [Inhabited σ] in
instance (key : Bytes) : Std.Refl (Untouched (σ := σ) key) := ⟨fun _ => rfl⟩

omit [LinearOrder σ] [Inhabited σ] in
instance (key : Bytes) : IsTrans (World σ) (Untouched key) := ⟨fun _ _ _ h h' => h'.trans h⟩

omit [LinearOrder σ] [Inhabited σ] in
theorem getAs_untouched {α : Type} (view : Entity σ → Option α) {k : Bytes} (h : key ≠ k) :
    Moves (Untouched key) (getAs env view k) := by
  intro w
  rw [wp_getAs]
  exact (DB.slot_evict).trans (if_neg h)

omit [LinearOrder σ] [Inhabited σ] in
theorem interLoop_untouched {keys : List Bytes} (h : key ∉ keys) (result : Option (Finset Bytes)) :
    Moves (Untouched key) (interLoop env result keys) := by
  induction keys generalizing result with
  | nil => exact .pure _
  | cons k keys ih =>
      obtain ⟨hk, hkeys⟩ := not_or.mp fun hn => h (List.mem_cons.mpr hn)
      apply (getAs_untouched _ hk).bind
      intro r
      repeat' split
      all_goals first | exact ih hkeys _ | exact .pure _

omit [LinearOrder σ] [Inhabited σ] in
theorem diffLoop_untouched {keys : List Bytes} (h : key ∉ keys) (first : Bool)
    (result : Option (Finset Bytes)) : Moves (Untouched key) (diffLoop env first result keys) := by
  induction keys generalizing first result with
  | nil => exact .pure _
  | cons k keys ih =>
      obtain ⟨hk, hkeys⟩ := not_or.mp fun hn => h (List.mem_cons.mpr hn)
      apply (getAs_untouched _ hk).bind
      intro r
      repeat' split
      all_goals first | exact ih hkeys _ _ | exact .pure _

/-- The set stored is gone with the expiration of the key that it is stored under. -/
theorem storeLoop_not_transparent {m : Exec σ Calculated} {f : Calculated → Exec σ Reply}
    {name : String} {dest : Slice} {keys : List Slice}
    (hm : ∀ K, Relates (Similar env K) (fun r => Similar env (lookedAt K (keys.map text) r)) m)
    (hdest : Moves (Untouched (text dest)) m)
    (hf : ∀ s, f (.result (some s)) = storeSet env name dest keys s)
    (hc : (command env c).executor args = m >>= f) (he : Expired env w (text dest))
    (hstores : Stores m w) : ¬ Transparent env c args w := by
  obtain ⟨s, hs⟩ := hstores
  have hs' : value m (purge env w) = some (.result (some s)) :=
    (hm _ w (purge env w) (purge_similar w)).1.symm.trans hs
  have hslot {w : World σ} (hs : value m w = some (.result (some s))) :
      (final (m >>= f) w).db.slot (text dest) =
        ⟨some (.set (makeSet (dictKeys env.choices s))), (w.db.slot (text dest)).ttl⟩ := by
    have hloop : (final m w).db.slot (text dest) = w.db.slot (text dest) := hdest.final w
    have hput : (final (m >>= f) w).db =
        (final m w).db.put (text dest) (.set (makeSet (dictKeys env.choices s))) := by
      rw [final_bind, hs]
      simp only [hf]
      rfl
    rw [hput, DB.slot_put, if_pos rfl, hloop]
  apply not_transparent_of_slot (text dest) hc
  rw [hslot hs, hslot hs', slot_purge_of_expired he]
  have hexpired := he.2
  rw [Slot.isExpired] at hexpired
  simp [Slot.evict, Slot.isExpired, hexpired, Slot.empty]

theorem execSInterStore_not_transparent (h : Mistakes env w .sInterStore args) :
    ¬ Transparent env .sInterStore args w := by
  rcases args with _ | ⟨dest, keys⟩
  · exact h.elim
  · obtain ⟨he, hmem, hstores⟩ := h
    exact storeLoop_not_transparent (fun K => interLoop_looks none (keys.map text))
      (interLoop_untouched hmem none) (fun _ => rfl) rfl he hstores

theorem execSDiffStore_not_transparent (h : Mistakes env w .sDiffStore args) :
    ¬ Transparent env .sDiffStore args w := by
  rcases args with _ | ⟨dest, keys⟩
  · exact h.elim
  · obtain ⟨he, hmem, hstores⟩ := h
    exact storeLoop_not_transparent (fun K => diffLoop_looks true none (keys.map text))
      (diffLoop_untouched hmem true none) (fun _ => rfl) rfl he hstores

/-- The commands that may reach an expired key without looking at it. -/
def mistaking : List CommandName :=
  [.set, .setNx, .mset, .del, .rename, .keys, .sInterStore, .sDiffStore]

omit [LinearOrder σ] [Inhabited σ] in
theorem mistakes_of_not_mem (hc : c ∉ mistaking) : direct c args = [] ∧ ¬ Mistakes env w c args := by
  cases c <;> first
    | exact absurd (by decide) hc
    | exact ⟨rfl, id⟩

theorem not_transparent (h : Mistakes env w c args) : ¬ Transparent env c args w := by
  by_cases hc : c ∈ mistaking
  · simp only [mistaking, List.mem_cons, List.not_mem_nil, or_false] at hc
    rcases hc with rfl | rfl | rfl | rfl | rfl | rfl | rfl | rfl
    · exact execSet_not_transparent h
    · exact execSetNX_not_transparent h
    · exact execMSet_not_transparent h
    · exact execDel_not_transparent h
    · exact execRename_not_transparent h
    · rcases args with _ | ⟨pattern, rest⟩
      · exact h.elim
      · exact fun ht => (execKeys_transparent_iff pattern rest).mp ht h
    · exact execSInterStore_not_transparent h
    · exact execSDiffStore_not_transparent h
  · exact absurd h (mistakes_of_not_mem hc).2

theorem transparent_of_panics (h : (command env c).executor args = panics) :
    Transparent env c args w :=
  transparent_of_similar h (Alike.panics (σ := σ) w (purge env w) (purge_similar w))

theorem transparent (h : ¬ Mistakes env w c args) : Transparent env c args w := by
  by_cases hc : c ∈ mistaking
  · simp only [mistaking, List.mem_cons, List.not_mem_nil, or_false] at hc
    rcases hc with rfl | rfl | rfl | rfl | rfl | rfl | rfl | rfl
    · exact transparent_of_direct (not_expired_of_direct (by decide) h) (by decide)
    · exact transparent_of_direct (not_expired_of_direct (by decide) h) (by decide)
    · exact transparent_of_direct (not_expired_of_direct (by decide) h) (by decide)
    · exact transparent_of_direct (not_expired_of_direct (by decide) h) (by decide)
    · rcases args with _ | ⟨src, _ | ⟨dest, _ | ⟨more, rest⟩⟩⟩
      · exact transparent_of_direct (by simp [direct]) (by decide)
      · exact transparent_of_direct (by simp [direct]) (by decide)
      · exact execRename_transparent h
      · exact transparent_of_direct (by simp [direct]) (by decide)
    · rcases args with _ | ⟨pattern, rest⟩
      · exact transparent_of_panics rfl
      · exact (execKeys_transparent_iff pattern rest).mpr h
    · rcases args with _ | ⟨dest, keys⟩
      · exact transparent_of_panics rfl
      · exact execSInterStore_transparent h
    · rcases args with _ | ⟨dest, keys⟩
      · exact transparent_of_panics rfl
      · exact execSDiffStore_transparent h
  · have hnone : direct c args = [] ∧ ¬ Mistakes env w c args := mistakes_of_not_mem hc
    apply transparent_of_direct (by simp [hnone.1])
    rintro rfl
    exact hc (by decide)

/-- Expired keys that are still there make no difference exactly where no command mistakes
one of them for a key that is there. -/
theorem transparent_iff (env : Env σ) (c : CommandName) (args : List Slice) (w : World σ) :
    Transparent env c args w ↔ ¬ Mistakes env w c args :=
  ⟨fun ht h => not_transparent h ht, transparent⟩

end

/-- `SETNX` on a key that is expired and not removed yet. -/
theorem not_transparent_setNx : ¬ ∀ (env : Env ℤ) c args w, Transparent env c args w := by
  intro h
  let w : World ℤ := ⟨(World.empty.db.put (bytes "k") (.str none)).expire (bytes "k") 0, []⟩
  have he : Expired (Env.plain 1) w (bytes "k") := by
    simp [Expired, w, Slot.isExpired, Env.plain]
  exact not_transparent (show Mistakes (Env.plain 1) w .setNx [some (bytes "k"), some (bytes "v")]
    from he) (h (.plain 1) .setNx [some (bytes "k"), some (bytes "v")] w)

end Traitor.Database
