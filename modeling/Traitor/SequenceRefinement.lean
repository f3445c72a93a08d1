import Traitor.ListUndo
import Traitor.Transaction

namespace Traitor.Sequences

open Database Lib.Effects Lib.FiniteMaps Lib.Strconv Protocol

variable {σ : Type} {env : Env σ} {w : Database.World σ} {v : World (Database.Entity σ)} {key : Bytes}
  {l : StoredList Slice} {s : List Slice}

inductive ShownAs : Database.Entity σ → Entity (Database.Entity σ) → Prop
  | list {l : StoredList Slice} {s : List Slice} (h : l.list.Represents s) : ShownAs (.list l) (.list s)
  | other {e : Database.Entity σ} (h : e.asList = none) : ShownAs e (.other e)

structure Shows (w : Database.World σ) (v : World (Database.Entity σ)) : Prop where
  data : ∀ key, Option.Rel ShownAs (w.db.data.lookup key) (v.data.lookup key)
  ttlMap : v.ttlMap = w.db.ttlMap
  aof : v.aof = w.aof

namespace Shows

theorem lookup (h : Shows w v) (key : Bytes) : w.db.data.lookup key = none ∧ v.data.lookup key = none ∨
    ∃ e e', w.db.data.lookup key = some e ∧ v.data.lookup key = some e' ∧ ShownAs e e' := by
  have hkey := h.data key
  revert hkey
  cases w.db.data.lookup key with
  | none =>
      cases v.data.lookup key with
      | none => exact fun _ => .inl ⟨rfl, rfl⟩
      | some e' => rintro ⟨⟩
  | some e =>
      cases v.data.lookup key with
      | none => rintro ⟨⟩
      | some e' =>
          rintro ⟨he⟩
          exact .inr ⟨e, e', rfl, rfl, he⟩

theorem isExpired_eq (h : Shows w v) (key : Bytes) : v.isExpired env.now key = w.db.isExpired env key := by
  rw [World.isExpired, h.ttlMap]
  rfl

theorem put (h : Shows w v) (key : Bytes) (hl : l.list.Represents s) :
    Shows { w with db := w.db.put key (.list l) } (v.put key s) := by
  refine ⟨fun k => ?_, h.ttlMap, h.aof⟩
  rw [World.put, DB.put, lookup_insert_ite, lookup_insert_ite]
  by_cases hk : k = key
  · rw [if_pos hk, if_pos hk]
    exact .some (.list hl)
  · rw [if_neg hk, if_neg hk]
    exact h.data k

theorem remove (h : Shows w v) (key : Bytes) :
    Shows { w with db := w.db.remove key } (v.remove key) := by
  refine ⟨fun k => ?_, ?_, h.aof⟩
  · rw [World.remove, DB.remove, lookup_erase_ite, lookup_erase_ite]
    by_cases hk : k = key
    · rw [if_pos hk, if_pos hk]
      exact .none
    · rw [if_neg hk, if_neg hk]
      exact h.data k
  · rw [World.remove, DB.remove, h.ttlMap]

end Shows

/-- The same value from states of which one shows the other, and such a state after a panic too. -/
abbrev Simulates {α : Type} (m : Database.Exec σ α) (m' : Exec (Database.Entity σ) α) (w : Database.World σ)
    (v : World (Database.Entity σ)) : Prop :=
  Pairs (fun a b w' v' => a = b ∧ Shows w' v') Shows m m' w v

theorem removeKey_simulates (h : Shows w v) (key : Bytes) :
    Simulates (Database.remove key) (removeKey key) w v := by
  apply Pairs.of_modify
  exact ⟨rfl, h.remove key⟩

theorem addAof_simulates (h : Shows w v) (line : CmdLine) :
    Simulates (Database.addAof line) (addAof line) w v := by
  apply Pairs.of_modify
  refine ⟨rfl, h.data, h.ttlMap, ?_⟩
  rw [h.aof]

theorem isExpired_pairs (h : Shows w v) (key : Bytes) :
    Pairs (fun b b' w' v' => (b = b' ∧ b' = v.isExpired env.now key ∧ Shows w' v') ∧
      (b' = false → w' = w ∧ v' = v)) Shows
      (Database.isExpired env key) (isExpired env.now key) w v := by
  apply Pairs.get_bind
  dsimp only
  rw [h.isExpired_eq]
  cases w.db.isExpired env key with
  | false => exact .pure ⟨⟨rfl, rfl, h⟩, fun _ => ⟨rfl, rfl⟩⟩
  | true =>
      apply (removeKey_simulates h key).bind
      rintro _ _ _ _ ⟨-, h'⟩
      exact .pure ⟨⟨rfl, rfl, h'⟩, fun hfalse => absurd hfalse.symm Bool.false_ne_true⟩

def Absent {ε : Type} (now : Int) (v : World ε) (key : Bytes) : Prop :=
  ∀ e, v.data.lookup key = some e → v.isExpired now key = true

inductive Finds (now : Int) (w : Database.World σ) (v : World (Database.Entity σ)) (key : Bytes) :
    Option (Database.Entity σ) → Option (Entity (Database.Entity σ)) → Database.World σ →
      World (Database.Entity σ) → Prop
  | missing {w' : Database.World σ} {v' : World (Database.Entity σ)} (h : Shows w' v')
      (habsent : Absent now v key) : Finds now w v key none none w' v'
  | found {e : Database.Entity σ} {e' : Entity (Database.Entity σ)} (he : ShownAs e e')
      (he' : v.data.lookup key = some e') : Finds now w v key (some e) (some e') w v

theorem getEntity_pairs (h : Shows w v) (key : Bytes) :
    Pairs (Finds env.now w v key) Shows
      (Database.getEntity env key) (getEntity env.now key) w v := by
  apply Pairs.get_bind
  rcases h.lookup key with ⟨he, he'⟩ | ⟨e, e', he, he', hshown⟩
  · rw [he, he']
    refine .pure (.missing h fun e hlookup => ?_)
    rw [he'] at hlookup
    cases hlookup
  · rw [he, he']
    apply (isExpired_pairs h key).bind
    rintro b _ w' v' ⟨⟨rfl, hexpired, h'⟩, hsame⟩
    cases b with
    | true => exact .pure (.missing h' fun _ _ => hexpired.symm)
    | false =>
        obtain ⟨rfl, rfl⟩ := hsame rfl
        exact .pure (.found hshown he')

inductive FindsList (now : Int) (w : Database.World σ) (v : World (Database.Entity σ)) (key : Bytes) :
    Except Reply (Option (StoredList Slice)) → Except Reply (Option (List Slice)) →
      Database.World σ → World (Database.Entity σ) → Prop
  | error (h : Shows w v) : FindsList now w v key (.error .wrongTypeErr) (.error .wrongTypeErr) w v
  | missing {w' : Database.World σ} {v' : World (Database.Entity σ)} (h : Shows w' v')
      (habsent : Absent now v key) : FindsList now w v key (.ok none) (.ok none) w' v'
  | list {l : StoredList Slice} {s : List Slice} (hl : l.list.Represents s)
      (hs : v.data.lookup key = some (.list s)) : FindsList now w v key (.ok (some l)) (.ok (some s)) w v

theorem getAsList_pairs (h : Shows w v) (key : Bytes) :
    Pairs (FindsList env.now w v key) Shows (Database.getAsList env key) (getAsList env.now key) w v := by
  apply (getEntity_pairs h key).bind
  rintro e e' w' v' hfinds
  cases hfinds with
  | missing h' habsent => exact .pure (.missing h' habsent)
  | found hshown hs =>
      cases hshown with
      | list hl => exact .pure (.list hl hs)
      | other hother =>
          dsimp only
          rw [hother]
          exact .pure (.error h)

theorem setList_pairs (h : Shows w v) (key : Bytes) (hl : l.list.Represents s) :
    Pairs (fun _ _ w' v' => Shows w' v' ∧ v' = v.put key s) Shows (setList key l) (putList key s) w v := by
  apply Pairs.of_modify
  exact ⟨h.put key hl, rfl⟩

theorem removeEmpty_simulates (h : Shows w v) (key : Bytes) (hl : l.list.Represents s) :
    Simulates (Database.removeEmpty key l) (removeEmpty key s) w v := by
  have hsize : l.size = s.length := hl.size
  rw [Database.removeEmpty, removeEmpty, hsize]
  by_cases hzero : s.length = 0
  · rw [if_pos hzero, if_pos (by omega)]
    exact removeKey_simulates h key
  · rw [if_neg hzero, if_neg (by omega)]
    exact .pure ⟨rfl, h⟩

inductive FindsOrInits (now : Int) (w : Database.World σ) (v : World (Database.Entity σ)) (key : Bytes) :
    Except Reply (StoredList Slice) → Except Reply (List Slice) →
      Database.World σ → World (Database.Entity σ) → Prop
  | error (h : Shows w v) : FindsOrInits now w v key (.error .wrongTypeErr) (.error .wrongTypeErr) w v
  | made {w' : Database.World σ} {v' : World (Database.Entity σ)} (h : Shows w' v')
      (habsent : Absent now v key) : FindsOrInits now w v key (.ok .newQuickList) (.ok []) w' v'
  | list {l : StoredList Slice} {s : List Slice} (hl : l.list.Represents s)
      (hs : v.data.lookup key = some (.list s)) : FindsOrInits now w v key (.ok l) (.ok s) w v

theorem getOrInitList_pairs (h : Shows w v) (key : Bytes) :
    Pairs (FindsOrInits env.now w v key) Shows (Database.getOrInitList env key) (getOrInitList env.now key)
      w v := by
  apply (getAsList_pairs h key).bind
  rintro r r' w' v' hfinds
  cases hfinds with
  | error h' => exact .pure (.error h')
  | list hl hs => exact .pure (.list hl hs)
  | missing h' habsent =>
      apply (setList_pairs h' key QuickList.newQuickList_represents).bind
      rintro _ _ w'' v'' ⟨h'', -⟩
      exact .pure (.made h'' habsent)

theorem insert_front_represents (hl : l.list.Represents s) (grow : Nat → Nat → Nat) (hne : s ≠ [])
    (value : Slice) :
    ∃ l', l.insert grow 0 value = some l' ∧ insert s 0 value = some (value :: s) ∧
      l'.list.Represents (value :: s) := by
  have hpos := List.length_pos_iff.mpr hne
  obtain ⟨ql, hql, hrep⟩ := hl.insert grow hpos value
  have hinsert : l.list.insert grow 0 value = some ql := hql
  refine ⟨⟨ql, l.wellFormed.insert hinsert⟩, ?_, ?_, hrep⟩
  · simp [StoredList.insert, hinsert]
  · rw [insert, if_neg (by omega), position, if_pos (by omega)]
    rfl

theorem add_represents (hl : l.list.Represents s) (grow : Nat → Nat → Nat) (hne : s ≠ []) (value : Slice) :
    (l.add grow value).list.Represents (s ++ [value]) := hl.add hne _ value

theorem remove_front_represents (hl : l.list.Represents s) (hne : s ≠ []) :
    ∃ l' val, l.remove 0 = some (l', val) ∧ remove s 0 = some (s.tail, val) ∧ l'.list.Represents s.tail := by
  have hpos := List.length_pos_iff.mpr hne
  obtain ⟨ql, hql, hrep⟩ := hl.remove hpos
  have hremove : l.list.remove 0 = some (ql, s[0]) := hql
  refine ⟨⟨ql, l.wellFormed.remove hremove⟩, s[0], ?_, ?_, ?_⟩
  · simp [StoredList.remove, hremove]
  · rw [remove, position, if_pos (by omega)]
    simp
  · rwa [List.eraseIdx_zero] at hrep

theorem set_represents (hl : l.list.Represents s) {index : Int} (hlow : 0 ≤ index) (hhigh : index < s.length)
    (value : Slice) :
    ∃ l', l.set index value = some l' ∧ set s index value = some (s.set index.toNat value) ∧
      l'.list.Represents (s.set index.toNat value) := by
  obtain ⟨i, rfl⟩ := Int.eq_ofNat_of_zero_le hlow
  have hi : i < s.length := by omega
  obtain ⟨ql, hql, hrep⟩ := hl.set hi value
  refine ⟨⟨ql, l.wellFormed.set hql⟩, ?_, ?_, hrep⟩
  · simp [StoredList.set, hql]
  · rw [set, position, if_pos ⟨hlow, hhigh⟩]
    rfl

theorem get_represents (hl : l.list.Represents s) {index : Int} (hlow : 0 ≤ index) (hhigh : index < s.length) :
    l.get index = get s index := by
  obtain ⟨i, rfl⟩ := Int.eq_ofNat_of_zero_le hlow
  rw [get, position, if_pos ⟨hlow, hhigh⟩]
  exact hl.get (by omega)

theorem removeLast_represents (hl : l.list.Represents s) :
    ∃ l', l.removeLast = (l', some s.getLast?) ∧ l'.list.Represents s.dropLast := by
  obtain ⟨ql, hql, hrep⟩ := hl.removeLast
  have hlist : l.removeLast.1.list = ql := congrArg Prod.fst hql
  have hlast : l.removeLast.2 = some s.getLast? := congrArg Prod.snd hql
  refine ⟨l.removeLast.1, Prod.ext rfl hlast, ?_⟩
  rwa [hlist]

/-- The first value that is added to a list of the database without any is stored twice, and so values are
only added where there are some. -/
theorem insertFront_pairs {values : List Slice} (h : Shows w v) (key : Bytes) (hl : l.list.Represents s)
    (hne : s ≠ [] ∨ values = []) :
    Pairs (fun l' s' w' v' => l'.list.Represents s' ∧ Shows w' v') Shows (Database.insertFront env key l values)
      (insertFront key s values) w v := by
  induction values generalizing w v l s with
  | nil => exact .pure ⟨hl, h⟩
  | cons value values ih =>
      have hs : s ≠ [] := hne.resolve_right (List.cons_ne_nil value values)
      obtain ⟨l', hinsert, hinsert', hl'⟩ := insert_front_represents hl env.lib.grow hs value
      rw [Database.insertFront, insertFront, hinsert, hinsert']
      apply (setList_pairs h key hl').bind
      rintro _ _ w' v' ⟨h', -⟩
      exact ih h' hl' (.inl (List.cons_ne_nil value s))

theorem addBack_pairs {values : List Slice} (h : Shows w v) (key : Bytes) (hl : l.list.Represents s)
    (hne : s ≠ [] ∨ values = []) :
    Pairs (fun l' s' w' v' => l'.list.Represents s' ∧ Shows w' v') Shows (Database.addBack env key l values)
      (addBack key s values) w v := by
  induction values generalizing w v l s with
  | nil => exact .pure ⟨hl, h⟩
  | cons value values ih =>
      have hs : s ≠ [] := hne.resolve_right (List.cons_ne_nil value values)
      have hl' := add_represents hl env.lib.grow hs value
      rw [Database.addBack, addBack]
      apply (setList_pairs h key hl').bind
      rintro _ _ w' v' ⟨h', -⟩
      exact ih h' hl' (.inl (List.append_ne_nil_of_right_ne_nil s (List.cons_ne_nil value [])))

/-- A command that changes a list and answers with its length. -/
theorem length_simulates {m : Database.Exec σ (StoredList Slice)} {m' : Exec (Database.Entity σ) (List Slice)}
    (hm : Pairs (fun l s w' v' => l.list.Represents s ∧ Shows w' v') Shows m m' w v) (line : CmdLine) :
    Simulates
      (do
        let l ← m
        Database.addAof line
        return Reply.int l.size)
      (do
        let s ← m'
        addAof line
        return Reply.int s.length) w v := by
  apply hm.bind
  rintro l s w' v' ⟨hl, h⟩
  apply (addAof_simulates h line).bind
  rintro _ _ w'' v'' ⟨-, h'⟩
  have hsize : l.size = s.length := hl.size
  rw [hsize]
  exact .pure ⟨rfl, h'⟩

def AddsFirst {ε : Type} (now : Int) (v : World ε) : ListCommand → List Slice → Prop
  | .lPush, key :: _ :: _ | .rPush, key :: _ :: _ => Absent now v (text key)
  | .rPopLPush, source :: dest :: _ => Absent now v (text dest) ∨
      text source = text dest ∧ ∃ val, v.data.lookup (text dest) = some (.list [val])
  | _, _ => False

theorem execLPop_simulates (h : Shows w v) (hfull : Full v.data) (args : List Slice) :
    Simulates (Database.execLPop env args) (execLPop env.now args) w v := by
  rcases args with _ | ⟨first, rest⟩
  · exact .panics h
  apply (getAsList_pairs h (text first)).bind
  rintro r r' w' v' hfinds
  cases hfinds with
  | error h' => exact .pure ⟨rfl, h'⟩
  | missing h' => exact .pure ⟨rfl, h'⟩
  | list hl hs =>
      obtain ⟨l', val, hremove, hremove', hl'⟩ := remove_front_represents hl (hfull _ _ hs)
      dsimp only
      rw [hremove, hremove']
      apply (setList_pairs h (text first) hl').bind
      rintro _ _ w' v' ⟨h', -⟩
      apply (removeEmpty_simulates h' (text first) hl').bind
      rintro _ _ w'' v'' ⟨-, h''⟩
      apply (addAof_simulates h'' _).bind
      rintro _ _ w''' v''' ⟨-, h'''⟩
      exact .pure ⟨rfl, h'''⟩

theorem execLPush_simulates (h : Shows w v) (hfull : Full v.data) {args : List Slice}
    (hfirst : ¬ AddsFirst env.now v .lPush args) :
    Simulates (Database.execLPush env args) (execLPush env.now args) w v := by
  rcases args with _ | ⟨first, values⟩
  · exact .panics h
  apply (getOrInitList_pairs h (text first)).bind
  rintro r r' w' v' hfinds
  cases hfinds with
  | error h' => exact .pure ⟨rfl, h'⟩
  | list hl hs => exact length_simulates (insertFront_pairs h (text first) hl (.inl (hfull _ _ hs))) _
  | made h' habsent =>
      cases values with
      | nil => exact length_simulates (insertFront_pairs h' _ QuickList.newQuickList_represents (.inr rfl)) _
      | cons value values => exact absurd habsent hfirst

theorem execRPush_simulates (h : Shows w v) (hfull : Full v.data) {args : List Slice}
    (hfirst : ¬ AddsFirst env.now v .rPush args) :
    Simulates (Database.execRPush env args) (execRPush env.now args) w v := by
  rcases args with _ | ⟨first, values⟩
  · exact .panics h
  apply (getOrInitList_pairs h (text first)).bind
  rintro r r' w' v' hfinds
  cases hfinds with
  | error h' => exact .pure ⟨rfl, h'⟩
  | list hl hs => exact length_simulates (addBack_pairs h (text first) hl (.inl (hfull _ _ hs))) _
  | made h' habsent =>
      cases values with
      | nil => exact length_simulates (addBack_pairs h' _ QuickList.newQuickList_represents (.inr rfl)) _
      | cons value values => exact absurd habsent hfirst

theorem execLPushX_simulates (h : Shows w v) (hfull : Full v.data) (args : List Slice) :
    Simulates (Database.execLPushX env args) (execLPushX env.now args) w v := by
  rcases args with _ | ⟨first, values⟩
  · exact .panics h
  apply (getAsList_pairs h (text first)).bind
  rintro r r' w' v' hfinds
  cases hfinds with
  | error h' => exact .pure ⟨rfl, h'⟩
  | missing h' => exact .pure ⟨rfl, h'⟩
  | list hl hs => exact length_simulates (insertFront_pairs h (text first) hl (.inl (hfull _ _ hs))) _

theorem execRPushX_simulates (h : Shows w v) (hfull : Full v.data) (args : List Slice) :
    Simulates (Database.execRPushX env args) (execRPushX env.now args) w v := by
  rcases args with _ | ⟨first, _ | ⟨value, values⟩⟩
  · exact .pure ⟨rfl, h⟩
  · exact .pure ⟨rfl, h⟩
  apply (getAsList_pairs h (text first)).bind
  rintro r r' w' v' hfinds
  cases hfinds with
  | error h' => exact .pure ⟨rfl, h'⟩
  | missing h' => exact .pure ⟨rfl, h'⟩
  | list hl hs => exact length_simulates (addBack_pairs h (text first) hl (.inl (hfull _ _ hs))) _

/-- Popping the last value leaves what is in front of it; the value of a list without any is the nil slice. -/
theorem popLast_pairs (h : Shows w v) (key : Bytes) (hl : l.list.Represents s) :
    Pairs (fun p _ w' v' => (p.1.list.Represents s.dropLast ∧ p.2 = s.getLast?.join) ∧ Shows w' v' ∧
        v' = v.put key s.dropLast) Shows (popLast key l) (putList key s.dropLast) w v := by
  obtain ⟨l', hremove, hl'⟩ := removeLast_represents hl
  rw [popLast, hremove]
  exact .inl ⟨_, _, _, _, (Runs.of_modify _ w).bind (.pure _ _), .of_modify _ v, ⟨hl', rfl⟩, h.put key hl', rfl⟩

theorem execRPop_simulates (h : Shows w v) (args : List Slice) :
    Simulates (Database.execRPop env args) (execRPop env.now args) w v := by
  rcases args with _ | ⟨first, rest⟩
  · exact .panics h
  apply (getAsList_pairs h (text first)).bind
  rintro r r' w' v' hfinds
  cases hfinds with
  | error h' => exact .pure ⟨rfl, h'⟩
  | missing h' => exact .pure ⟨rfl, h'⟩
  | list hl hs =>
      apply (popLast_pairs h (text first) hl).bind
      rintro ⟨l', val⟩ _ w' v' ⟨⟨hl', rfl⟩, h', -⟩
      apply (removeEmpty_simulates h' (text first) hl').bind
      rintro _ _ w'' v'' ⟨-, h''⟩
      apply (addAof_simulates h'' _).bind
      rintro _ _ w''' v''' ⟨-, h'''⟩
      exact .pure ⟨rfl, h'''⟩

theorem execLSet_simulates (h : Shows w v) (args : List Slice) :
    Simulates (Database.execLSet env args) (execLSet env.now args) w v := by
  rcases args with _ | ⟨first, _ | ⟨rawIndex, _ | ⟨value, rest⟩⟩⟩
  · exact .panics h
  · exact .panics h
  · exact .panics h
  rw [Database.execLSet, execLSet]
  cases parseInt 64 (text rawIndex) with
  | none => exact .pure ⟨rfl, h⟩
  | some n =>
      apply (getAsList_pairs h (text first)).bind
      rintro r r' w' v' hfinds
      cases hfinds with
      | error h' => exact .pure ⟨rfl, h'⟩
      | missing h' => exact .pure ⟨rfl, h'⟩
      | @list l s hl hs =>
          have hsize : l.size = s.length := hl.size
          dsimp only
          rw [hsize]
          cases hindex : elementIndex n s.length with
          | none => exact .pure ⟨rfl, h⟩
          | some index =>
              obtain ⟨hlow, hhigh⟩ := elementIndex_range hindex
              obtain ⟨l', hset, hset', hl'⟩ := set_represents hl hlow hhigh value
              dsimp only
              rw [hset, hset']
              apply (setList_pairs h (text first) hl').bind
              rintro _ _ w' v' ⟨h', -⟩
              apply (addAof_simulates h' _).bind
              rintro _ _ w'' v'' ⟨-, h''⟩
              exact .pure ⟨rfl, h''⟩

theorem currentList_pairs (h : Shows w v) (key : Bytes) (hl : l.list.Represents s) :
    Pairs (fun l' s' w' v' => l'.list.Represents s' ∧ (w' = w ∧ v' = v) ∧
        ∀ u, v.data.lookup key = some (.list u) → s' = u)
      Shows (Database.currentList key l) (currentList key s) w v := by
  apply Pairs.get_bind
  rcases h.lookup key with ⟨he, he'⟩ | ⟨e, e', he, he', hshown⟩
  · rw [he, he']
    exact .pure ⟨hl, ⟨rfl, rfl⟩, fun u hu => by cases hu⟩
  · rw [he, he']
    cases hshown with
    | list hl' =>
        refine .pure ⟨hl', ⟨rfl, rfl⟩, fun u hu => ?_⟩
        cases hu
        rfl
    | other hother =>
        rw [Option.bind_some, hother]
        exact .pure ⟨hl, ⟨rfl, rfl⟩, fun u hu => by cases hu⟩

/-- The list that gets the value has another one, also where it is the list that loses it. -/
theorem dest_ne_nil {source dest : Slice} {t u : List Slice} (hfull : Full v.data)
    (ht : v.data.lookup (text dest) = some (.list t)) {rest : List Slice} {now : Int}
    (hs : v.data.lookup (text source) = some (.list s))
    (hfirst : ¬ AddsFirst now v .rPopLPush (source :: dest :: rest))
    (hu : ∀ u', (v.put (text source) s.dropLast).data.lookup (text dest) = some (.list u') → u = u') :
    u ≠ [] := by
  by_cases hsame : text source = text dest
  · rw [hu s.dropLast (by rw [World.put, hsame, Finmap.lookup_insert])]
    intro hnil
    have hlen : s.length ≤ 1 := by
      have hzero := congrArg List.length hnil
      rw [List.length_dropLast, List.length_nil] at hzero
      omega
    rcases s with _ | ⟨val, _ | ⟨_, _⟩⟩
    · exact hfull _ _ hs rfl
    · exact hfirst (.inr ⟨hsame, val, hsame ▸ hs⟩)
    · rw [List.length_cons, List.length_cons] at hlen
      omega
  · rw [hu t (by rw [World.put, Finmap.lookup_insert_of_ne _ (Ne.symm hsame), ht])]
    exact hfull _ _ ht

theorem execRPopLPush_simulates (h : Shows w v) (hfull : Full v.data) {args : List Slice}
    (hfirst : ¬ AddsFirst env.now v .rPopLPush args) :
    Simulates (Database.execRPopLPush env args) (execRPopLPush env.now args) w v := by
  rcases args with _ | ⟨source, _ | ⟨dest, rest⟩⟩
  · exact .panics h
  · exact .panics h
  apply (getAsList_pairs h (text source)).bind
  rintro r r' w' v' hfinds
  cases hfinds with
  | error h' => exact .pure ⟨rfl, h'⟩
  | missing h' => exact .pure ⟨rfl, h'⟩
  | @list l s hl hs =>
      apply (getOrInitList_pairs h (text dest)).bind
      rintro r r' w' v' hfinds
      cases hfinds with
      | error h' => exact .pure ⟨rfl, h'⟩
      | made h' habsent => exact absurd (.inl habsent) hfirst
      | @list d t hd ht =>
          apply (popLast_pairs h (text source) hl).bind
          rintro ⟨l', val⟩ _ w' v' ⟨⟨hl', rfl⟩, h', rfl⟩
          apply (currentList_pairs h' (text dest) hd).bind
          rintro d' t' _ _ ⟨hd', ⟨rfl, rfl⟩, ht'⟩
          obtain ⟨d'', hinsert, hinsert', hd''⟩ := insert_front_represents hd' env.lib.grow
            (dest_ne_nil hfull ht hs hfirst ht') s.getLast?.join
          rw [hinsert, hinsert']
          apply (setList_pairs h' (text dest) hd'').bind
          rintro _ _ w'' v'' ⟨h'', -⟩
          apply (currentList_pairs h'' (text source) hl').bind
          rintro l'' s'' _ _ ⟨hl'', ⟨rfl, rfl⟩, -⟩
          apply (removeEmpty_simulates h'' (text source) hl'').bind
          rintro _ _ w''' v''' ⟨-, h'''⟩
          apply (addAof_simulates h''' _).bind
          rintro _ _ w'''' v'''' ⟨-, h''''⟩
          exact .pure ⟨rfl, h''''⟩

theorem undoElement_simulates (h : Shows w v) (key : Bytes) {index : Int → Option Int}
    (hindex : ∀ (s : List Slice) i, index s.length = some i → 0 ≤ i ∧ i < s.length)
    (lines : Slice → List CmdLine) :
    Simulates (Database.undoElement env key index lines) (undoElement env.now key index lines) w v := by
  apply (getAsList_pairs h key).bind
  rintro r r' w' v' hfinds
  cases hfinds with
  | error h' => exact .pure ⟨rfl, h'⟩
  | missing h' => exact .pure ⟨rfl, h'⟩
  | @list l s hl hs =>
      have hsize : l.size = s.length := hl.size
      dsimp only
      rw [hsize]
      cases hi : index s.length with
      | none => exact .pure ⟨rfl, h⟩
      | some i =>
          obtain ⟨hlow, hhigh⟩ := hindex s i hi
          dsimp only
          rw [get_represents hl hlow hhigh]
          cases get s i with
          | none => exact .panics h
          | some element => exact .pure ⟨rfl, h⟩

section

variable [LinearOrder σ] [Inhabited σ] {c : ListCommand} {args : List Slice}

theorem executor_simulates (h : Shows w v) (hfull : Full v.data) (hfirst : ¬ AddsFirst env.now v c args) :
    Simulates ((command env c.commandName).executor args) (c.executor env.now args) w v := by
  cases c with
  | lPush => exact execLPush_simulates h hfull hfirst
  | lPushX => exact execLPushX_simulates h hfull args
  | rPush => exact execRPush_simulates h hfull hfirst
  | rPushX => exact execRPushX_simulates h hfull args
  | lPop => exact execLPop_simulates h hfull args
  | rPop => exact execRPop_simulates h args
  | rPopLPush => exact execRPopLPush_simulates h hfull hfirst
  | lSet => exact execLSet_simulates h args

theorem cmdTable_commandName {cmdName : Bytes} (h : cmdTable cmdName = some c) :
    Database.cmdTable cmdName = some c.commandName := by
  have hname : bytes c.commandName.name = cmdName := by simpa using List.find?_some h
  subst hname
  cases c <;> rfl

omit [LinearOrder σ] [Inhabited σ] in
theorem lastIndex_range (s : List Slice) (i : Int) (h : lastIndex s.length = some i) :
    0 ≤ i ∧ i < s.length := by
  rw [lastIndex] at h
  split at h
  · cases h
  · cases h
    omega

theorem undo_simulates (h : Shows w v) (c : ListCommand) (args : List Slice) :
    ∃ undo, (command env c.commandName).undo = some undo ∧ Simulates (undo args) (c.undo env.now args) w v := by
  cases c with
  | lPush | lPushX | rPush | rPushX =>
      refine ⟨_, rfl, ?_⟩
      cases args with
      | nil => exact .panics h
      | cons first values => exact .pure ⟨rfl, h⟩
  | lPop =>
      refine ⟨_, rfl, ?_⟩
      cases args with
      | nil => exact .panics h
      | cons first rest =>
          change Simulates (Database.undoLPop env (first :: rest)) (undoLPop env.now (first :: rest)) w v
          rw [Database.undoLPop, undoLPop]
          refine undoElement_simulates h (text first) (fun s i hi => ?_) _
          split at hi
          · cases hi
          · cases hi
            omega
  | rPop =>
      refine ⟨_, rfl, ?_⟩
      cases args with
      | nil => exact .panics h
      | cons first rest => exact undoElement_simulates h _ lastIndex_range _
  | rPopLPush =>
      refine ⟨_, rfl, ?_⟩
      rcases args with _ | ⟨source, _ | ⟨dest, rest⟩⟩
      · exact .panics h
      · exact .panics h
      · exact undoElement_simulates h _ lastIndex_range _
  | lSet =>
      refine ⟨_, rfl, ?_⟩
      rcases args with _ | ⟨first, _ | ⟨rawIndex, rest⟩⟩
      · exact .panics h
      · exact .panics h
      change Simulates (Database.undoLSet env (first :: rawIndex :: rest))
        (undoLSet env.now (first :: rawIndex :: rest)) w v
      rw [Database.undoLSet, undoLSet]
      cases parseInt 64 (text rawIndex) with
      | none => exact .pure ⟨rfl, h⟩
      | some n => exact undoElement_simulates h _ (fun s i hi => elementIndex_range hi) _

theorem getUndoLogs_simulates (h : Shows w v) {name : Slice} (hc : cmdTable (toLower (text name)) = some c) :
    Simulates (Transaction.getUndoLogs env (name :: args)) (getUndoLogs env.now (name :: args)) w v := by
  obtain ⟨undo, hundo, hsim⟩ := @undo_simulates σ env w v _ _ h c args
  have hlogs : Transaction.getUndoLogs env (name :: args) = undo args := by
    rw [Transaction.getUndoLogs, cmdTable_commandName hc]
    simp only [hundo]
  have hlogs' : getUndoLogs (ε := Database.Entity σ) env.now (name :: args) = c.undo env.now args := by
    rw [getUndoLogs, hc]
  rw [hlogs, hlogs']
  exact hsim

theorem execWithLock_simulates (h : Shows w v) (hfull : Full v.data) {name : Slice}
    (hc : cmdTable (toLower (text name)) = some c) (hfirst : ¬ AddsFirst env.now v c args) :
    Simulates (Database.execWithLock env (name :: args)) (execWithLock env.now (name :: args)) w v := by
  have harity : (command env c.commandName).arity = c.arity := by cases c <;> rfl
  rw [Database.execWithLock, findCommand, execWithLock, cmdTable_commandName hc, hc]
  dsimp only
  rw [harity]
  cases validateArity c.arity (name :: args) with
  | false => exact .pure ⟨rfl, h⟩
  | true => exact executor_simulates h hfull hfirst

def NeverFirst {ε : Type} (now : Int) : World ε → List CmdLine → Prop
  | _, [] => True
  | v, line :: lines => Full v.data ∧
      (∃ name args c, line = name :: args ∧ cmdTable (toLower (text name)) = some c ∧
        ¬ AddsFirst now v c args) ∧
      NeverFirst now (final (execWithLock now line) v) lines

theorem execUndo_simulates {lines : List CmdLine} {v' : World (Database.Entity σ)} (h : Shows w v)
    (hlines : NeverFirst env.now v lines) (hrun : Runs (execUndo env.now lines) v ⟨⟩ v') :
    ∃ w', Runs (Transaction.execUndo env lines) w ⟨⟩ w' ∧ Shows w' v' := by
  induction lines generalizing w v with
  | nil =>
      obtain ⟨-, rfl⟩ := Runs.pure_iff.mp hrun
      exact ⟨w, .pure _ w, h⟩
  | cons line lines ih =>
      obtain ⟨hfull, ⟨name, args, c, rfl, hc, hfirst⟩, hrest⟩ := hlines
      obtain ⟨reply, u, hline, hlines⟩ := hrun.of_bind
      rw [hline.final] at hrest
      obtain ⟨reply', u', hline', -, hu⟩ := (execWithLock_simulates h hfull hc hfirst).runs_left hline
      obtain ⟨w', hlines', hw'⟩ := ih hu hrest hlines
      exact ⟨w', hline'.bind hlines', hw'⟩

/-- Where no line adds a value to a list without any, the lines restore the lists of the database too. -/
theorem database_undone (h : Shows w v) (hlive : Live env.now v) (hfull : Full v.data) {name : Slice}
    (hc : cmdTable (toLower (text name)) = some c) (harity : validateArity c.arity (name :: args) = true)
    (hfirst : ¬ AddsFirst env.now v c args) {reply : Reply}
    (hreply : value (c.executor env.now args) v = some reply) (hok : isErrorReply reply = false)
    (hlines : ∀ lines, Runs (c.undo env.now args) v lines v →
      NeverFirst env.now (final (c.executor env.now args) v) lines) :
    ∃ lines w', Runs (Transaction.getUndoLogs env (name :: args)) w lines w' ∧ ∃ w'',
      Runs (Database.execWithLock env (name :: args)) w' reply w'' ∧ ∃ t,
        Runs (Transaction.execUndo env lines) w'' ⟨⟩ t ∧
          ∀ key, Option.Rel ShownAs (t.db.data.lookup key) (v.data.lookup key) := by
  obtain ⟨lines, hundo, ⟨⟩, v', hback, hdata, -⟩ := executor_undone hlive hfull c harity hreply hok
  have hlogs : Runs (getUndoLogs env.now (name :: args)) v lines v := by
    rw [getUndoLogs, hc]
    exact hundo
  obtain ⟨lines', w', hlogs', rfl, hw'⟩ := (getUndoLogs_simulates h hc).runs_left hlogs
  have hrun : Runs (execWithLock env.now (name :: args)) v reply (final (c.executor env.now args) v) := by
    rw [execWithLock_line hc harity]
    exact .of_value hreply
  obtain ⟨_, w'', hrun', rfl, hw''⟩ := (execWithLock_simulates hw' hfull hc hfirst).runs_left hrun
  obtain ⟨t, ht, hshows⟩ := execUndo_simulates hw'' (hlines lines' hundo) hback
  refine ⟨lines', w', hlogs', w'', hrun', t, ht, fun key => ?_⟩
  rw [← hdata]
  exact hshows.data key

end

end Traitor.Sequences
