import Traitor.LostStores
import Traitor.SetUndo

namespace Traitor.Database

open Lib.Effects Lib.Strconv Protocol

variable {σ : Type} {env : Env σ} {w t : World σ} {key : Bytes} {keys : List Bytes} {P : Bytes → Prop}

section

variable (w)

def heldAt (key : Bytes) : Option (Finset Bytes) := (w.db.data.lookup key).bind Entity.asSet

def membersAt (key : Bytes) : Finset Bytes := membersOf (heldAt w key)

def InAll (keys : List Bytes) (x : Bytes) : Prop := ∀ key ∈ keys, x ∈ membersAt w key

def InSome (keys : List Bytes) (x : Bytes) : Prop := ∃ key ∈ keys, x ∈ membersAt w key

def InFirstOnly : List Bytes → Bytes → Prop
  | [], _ => False
  | key :: keys, x => x ∈ membersAt w key ∧ ¬ InSome w keys x

def afterFirst : List Bytes → List Bytes
  | [] => []
  | key :: keys => if heldAt w key = none then afterFirst keys else keys

end

structure OfSets (env : Env σ) (w : World σ) (keys : List Bytes) : Prop where
  fresh : NoneExpired env w
  sets : ∀ key ∈ keys, Absent w key ∨ HoldsSet w key

theorem OfSets.tail (h : OfSets env w (key :: keys)) : OfSets env w keys :=
  ⟨h.fresh, fun k hk => h.sets k (List.mem_cons_of_mem key hk)⟩

theorem OfSets.at (h : OfSets env w (key :: keys)) : SetAt env w key (heldAt w key) := by
  refine ⟨?_, by rw [DB.isExpired_slot]; exact h.fresh key⟩
  rcases h.sets key List.mem_cons_self with hnone | ⟨s, hs⟩
  · have hdata : w.db.data.lookup key = none := hnone
    rw [heldAt, hdata]
    rfl
  · have hdata : w.db.data.lookup key = some (.set s) := hs
    rw [heldAt, hdata]
    rfl

theorem membersAt_of_none (h : heldAt w key = none) : membersAt w key = ∅ := by
  rw [membersAt, h]
  rfl

theorem membersAt_of_some {s : Finset Bytes} (h : heldAt w key = some s) : membersAt w key = s := by
  rw [membersAt, h]
  rfl

theorem inSome_nil (x : Bytes) : ¬ InSome w [] x := by
  rintro ⟨key, hkey, -⟩
  cases hkey

theorem inSome_cons (x : Bytes) : InSome w (key :: keys) x ↔ x ∈ membersAt w key ∨ InSome w keys x := by
  simp only [InSome, List.mem_cons, exists_eq_or_imp]

def AnswersSet (P : Bytes → Prop) (reply : Reply) : Prop :=
  ∃ l : List Bytes, (reply = .multiBulk (l.map some) ∨ reply = .emptyMultiBulk ∧ l = []) ∧ l.Nodup ∧
    ∀ x, x ∈ l ↔ P x

def RepliesSet (m : Exec σ Reply) (w : World σ) (P : Bytes → Prop) : Prop :=
  ∃ reply t, Runs m w reply t ∧ AnswersSet P reply

/-- The destination holds a set of these without a time to live, or is absent where there are none,
and the other keys are as they were. -/
structure Stored (w t : World σ) (dest : Bytes) (P : Bytes → Prop) : Prop where
  others : ∀ key, key ≠ dest → t.db.slot key = w.db.slot key
  absent : (∀ x, ¬ P x) → t.db.slot dest = .empty
  holds : (∃ x, P x) → ∃ s, t.db.slot dest = ⟨some (.set s), none⟩ ∧ ∀ x, x ∈ s ↔ P x

def StoresSet (m : Exec σ Reply) (w : World σ) (dest : Bytes) (P : Bytes → Prop) : Prop :=
  ∃ reply t, Runs m w reply t ∧ Stored w t dest P

theorem repliesSet_iff {m : Exec σ Reply} {reply : Reply} (h : Runs m w reply t) :
    RepliesSet m w P ↔ AnswersSet P reply := by
  constructor
  · rintro ⟨reply', t', hrun, hset⟩
    obtain ⟨rfl, -⟩ := h.unique hrun
    exact hset
  · exact fun hset => ⟨reply, t, h, hset⟩

theorem storesSet_iff {m : Exec σ Reply} {reply : Reply} {dest : Bytes} (h : Runs m w reply t) :
    StoresSet m w dest P ↔ Stored w t dest P := by
  constructor
  · rintro ⟨reply', t', hrun, hset⟩
    obtain ⟨-, rfl⟩ := h.unique hrun
    exact hset
  · exact fun hset => ⟨reply, t, h, hset⟩

theorem answersSet_emptyMultiBulk : AnswersSet P .emptyMultiBulk ↔ ∀ x, ¬ P x := by
  constructor
  · rintro ⟨l, hreply | ⟨-, rfl⟩, -, hl⟩ x hx
    · cases hreply
    · exact absurd ((hl x).mpr hx) List.not_mem_nil
  · intro h
    exact ⟨[], .inr ⟨rfl, rfl⟩, List.nodup_nil, fun x => iff_of_false List.not_mem_nil (h x)⟩

theorem answersSet_members (s : Finset Bytes) : AnswersSet P (members env s) ↔ ∀ x, x ∈ s ↔ P x := by
  constructor
  · rintro ⟨l, hreply | ⟨hreply, -⟩, -, hl⟩ x
    · rw [← hl, ← env.choices.mem_order, multiBulk_inj hreply]
    · cases hreply
  · intro h
    refine ⟨env.choices.order s, .inl rfl, env.choices.order_nodup s, fun x => ?_⟩
    rw [env.choices.mem_order, h]

theorem answersSet_members_empty : AnswersSet P (members env ∅) ↔ ∀ x, ¬ P x := by
  rw [answersSet_members]
  exact forall_congr' fun x => ⟨fun h hx => Finset.notMem_empty x (h.mpr hx),
    fun h => iff_of_false (Finset.notMem_empty x) h⟩

/-- A destination that is removed is right for a set that is empty. -/
theorem stored_removed {dest : Bytes} (hdb : t.db = w.db.remove dest) : Stored w t dest P ↔ ∀ x, ¬ P x := by
  have hslot : t.db.slot dest = .empty := by rw [hdb, DB.slot_remove, if_pos rfl]
  constructor
  · intro h x hx
    obtain ⟨s, hs, -⟩ := h.holds ⟨x, hx⟩
    rw [hslot] at hs
    cases hs
  · intro h
    refine ⟨fun key hkey => by rw [hdb, DB.slot_remove, if_neg hkey], fun _ => hslot, ?_⟩
    rintro ⟨x, hx⟩
    exact absurd hx (h x)

/-- An empty set is never what shall be stored. -/
theorem not_stored_empty {dest : Bytes} (hdata : (t.db.slot dest).data = some (.set ∅)) : ¬ Stored w t dest P := by
  intro h
  by_cases hnone : ∀ x, ¬ P x
  · rw [h.absent hnone] at hdata
    cases hdata
  · obtain ⟨x, hx⟩ := not_forall_not.mp hnone
    obtain ⟨s, hs, hmem⟩ := h.holds ⟨x, hx⟩
    rw [hs] at hdata
    cases hdata
    exact absurd ((hmem x).mpr hx) (Finset.notMem_empty x)

theorem storeSet_runs (name : String) (dest : Slice) (args : List Slice) (s : Finset Bytes) (w : World σ) :
    ∃ t, Runs (storeSet env name dest args s) w (.int 0) t ∧ t.db = w.db.put (text dest) (.set ∅) :=
  ⟨_, (putEntity_runs _ _ w).bind ((addAof_runs _ _).bind (.pure _ _)), rfl⟩

/-- With the empty set as its result so far the loop ends at the next key. -/
theorem interLoop_rest (h : OfSets env w keys) :
    Runs (interLoop env (some ∅) keys) w (if keys = [] then .result (some ∅) else .empty) w := by
  cases keys with
  | nil => exact .pure _ w
  | cons key keys =>
      rw [if_neg (List.cons_ne_nil key keys)]
      apply h.at.getAs.bind
      cases heldAt w key with
      | none => exact .pure _ w
      | some s =>
          dsimp only
          rw [if_pos (by rw [Finset.empty_inter, Finset.card_empty])]
          exact .pure _ w

/-- The members of the first set are not copied. -/
theorem interLoop_runs (h : OfSets env w (key :: keys)) :
    Runs (interLoop env none (key :: keys)) w
      (if heldAt w key = none ∨ keys ≠ [] then .empty else .result (some ∅)) w := by
  apply h.at.getAs.bind
  cases hkey : heldAt w key with
  | none => exact .pure _ w
  | some s =>
      have hrest := interLoop_rest h.tail
      by_cases hkeys : keys = []
      · rw [if_pos hkeys] at hrest
        rwa [if_neg (by simp [hkeys])]
      · rw [if_neg hkeys] at hrest
        rwa [if_pos (.inr hkeys)]

theorem diffLoop_rest (h : OfSets env w keys) :
    Runs (diffLoop env false (some ∅) keys) w
      (if ∃ key ∈ keys, heldAt w key ≠ none then .empty else .result (some ∅)) w := by
  induction keys with
  | nil =>
      rw [if_neg (by simp)]
      exact .pure _ w
  | cons key keys ih =>
      apply h.at.getAs.bind
      cases hkey : heldAt w key with
      | none =>
          simp only [List.mem_cons, exists_eq_or_imp, hkey, ne_eq, not_true_eq_false, false_or, Bool.false_eq_true,
            if_false]
          exact ih h.tail
      | some s =>
          dsimp only
          rw [if_pos (by rw [Finset.empty_sdiff, Finset.card_empty]),
            if_pos ⟨key, List.mem_cons_self, by rw [hkey]; exact Option.some_ne_none s⟩]
          exact .pure _ w

theorem diffLoop_runs (h : OfSets env w (key :: keys)) :
    Runs (diffLoop env true none (key :: keys)) w
      (if heldAt w key = none ∨ ∃ key ∈ keys, heldAt w key ≠ none then .empty else .result (some ∅)) w := by
  apply h.at.getAs.bind
  cases hkey : heldAt w key with
  | none => exact .pure _ w
  | some s =>
      have hrest := diffLoop_rest h.tail
      simp only [reduceCtorEq, false_or]
      exact hrest

theorem unionLoop_rest (h : OfSets env w keys) (r : Finset Bytes) :
    ∃ r', Runs (unionLoop env (some r) keys) w (.result (some r')) w ∧ ∀ x, x ∈ r' ↔ x ∈ r ∨ InSome w keys x := by
  induction keys generalizing r with
  | nil => exact ⟨r, .pure _ w, fun x => (or_iff_left (inSome_nil x)).symm⟩
  | cons key keys ih =>
      cases hkey : heldAt w key with
      | none =>
          obtain ⟨r', hrun, hr'⟩ := ih h.tail r
          refine ⟨r', h.at.getAs.bind (by rw [hkey]; exact hrun), fun x => ?_⟩
          rw [hr', inSome_cons, membersAt_of_none hkey, or_iff_right (Finset.notMem_empty x)]
      | some s =>
          obtain ⟨r', hrun, hr'⟩ := ih h.tail (r ∪ s)
          refine ⟨r', h.at.getAs.bind (by rw [hkey]; exact hrun), fun x => ?_⟩
          rw [hr', inSome_cons, membersAt_of_some hkey, Finset.mem_union, or_assoc]

theorem unionLoop_runs (h : OfSets env w keys) :
    (Runs (unionLoop env none keys) w (.result none) w ∧ ∀ key ∈ keys, heldAt w key = none) ∨
      ∃ r, Runs (unionLoop env none keys) w (.result (some r)) w ∧ (∃ key ∈ keys, heldAt w key ≠ none) ∧
        ∀ x, x ∈ r ↔ InSome w (afterFirst w keys) x := by
  induction keys with
  | nil => exact .inl ⟨.pure _ w, by simp⟩
  | cons key keys ih =>
      cases hkey : heldAt w key with
      | none =>
          rw [afterFirst, if_pos hkey]
          rcases ih h.tail with ⟨hrun, hnone⟩ | ⟨r, hrun, ⟨key', hkey', hsome⟩, hr⟩
          · exact .inl ⟨h.at.getAs.bind (by rw [hkey]; exact hrun), List.forall_mem_cons.mpr ⟨hkey, hnone⟩⟩
          · exact .inr ⟨r, h.at.getAs.bind (by rw [hkey]; exact hrun),
              ⟨key', List.mem_cons_of_mem key hkey', hsome⟩, hr⟩
      | some s =>
          have hsome : heldAt w key ≠ none := by rw [hkey]; exact Option.some_ne_none s
          obtain ⟨r, hrun, hr⟩ := unionLoop_rest h.tail ∅
          refine .inr ⟨r, h.at.getAs.bind (by rw [hkey]; exact hrun), ⟨key, List.mem_cons_self, hsome⟩, fun x => ?_⟩
          rw [hr, afterFirst, if_neg hsome, or_iff_right (Finset.notMem_empty x)]

variable {args : List Slice} {dest : Slice}

theorem execSInter_iff (hne : args ≠ []) (h : OfSets env w (args.map text)) :
    RepliesSet (execSInter env args) w (InAll w (args.map text)) ↔ ∀ x, ¬ InAll w (args.map text) x := by
  obtain ⟨first, rest, rfl⟩ := List.exists_cons_of_ne_nil hne
  have hloop := interLoop_runs h
  split at hloop
  · have hrun : Runs (execSInter env (first :: rest)) w .emptyMultiBulk w := hloop.bind (.pure _ w)
    rw [repliesSet_iff hrun, answersSet_emptyMultiBulk]
  · have hrun : Runs (execSInter env (first :: rest)) w (members env ∅) w := hloop.bind (.pure _ w)
    rw [repliesSet_iff hrun, answersSet_members_empty]

theorem execSDiff_iff (hne : args ≠ []) (h : OfSets env w (args.map text)) :
    RepliesSet (execSDiff env args) w (InFirstOnly w (args.map text)) ↔
      ∀ x, ¬ InFirstOnly w (args.map text) x := by
  obtain ⟨first, rest, rfl⟩ := List.exists_cons_of_ne_nil hne
  have hloop := diffLoop_runs h
  split at hloop
  · have hrun : Runs (execSDiff env (first :: rest)) w .emptyMultiBulk w := hloop.bind (.pure _ w)
    rw [repliesSet_iff hrun, answersSet_emptyMultiBulk]
  · have hrun : Runs (execSDiff env (first :: rest)) w (members env ∅) w := hloop.bind (.pure _ w)
    rw [repliesSet_iff hrun, answersSet_members_empty]

theorem afterFirst_subset (keys : List Bytes) : afterFirst w keys ⊆ keys := by
  induction keys with
  | nil => exact List.Subset.refl _
  | cons key keys ih =>
      rw [afterFirst]
      split
      · exact List.subset_cons_of_subset key ih
      · exact List.subset_cons_self key keys

theorem execSUnion_iff (h : OfSets env w (args.map text)) :
    RepliesSet (execSUnion env args) w (InSome w (args.map text)) ↔
      ∀ x, InSome w (args.map text) x → InSome w (afterFirst w (args.map text)) x := by
  rcases unionLoop_runs h with ⟨hloop, hnone⟩ | ⟨r, hloop, -, hr⟩
  · have hrun : Runs (execSUnion env args) w .emptyMultiBulk w := hloop.bind (.pure _ w)
    rw [repliesSet_iff hrun, answersSet_emptyMultiBulk]
    have hempty (x : Bytes) : ¬ InSome w (args.map text) x := by
      rintro ⟨key, hkey, hx⟩
      rw [membersAt_of_none (hnone key hkey)] at hx
      exact Finset.notMem_empty x hx
    exact iff_of_true hempty fun x hx => absurd hx (hempty x)
  · have hrun : Runs (execSUnion env args) w (members env r) w := hloop.bind (.pure _ w)
    rw [repliesSet_iff hrun, answersSet_members]
    apply forall_congr'
    intro x
    rw [hr]
    refine ⟨fun hx => hx.mpr, fun hx => ⟨fun hsome => ?_, hx⟩⟩
    obtain ⟨key, hkey, hmem⟩ := hsome
    exact ⟨key, afterFirst_subset _ hkey, hmem⟩

theorem execSInterStore_iff (hne : args ≠ []) (h : OfSets env w (args.map text)) :
    StoresSet (execSInterStore env (dest :: args)) w (text dest) (InAll w (args.map text)) ↔
      (∀ x, ¬ InAll w (args.map text) x) ∧ ∀ key, args.map text = [key] → heldAt w key = none := by
  obtain ⟨first, rest, rfl⟩ := List.exists_cons_of_ne_nil hne
  have hloop := interLoop_runs h
  split at hloop
  · next hends =>
      have hrun : Runs (execSInterStore env (dest :: first :: rest)) w (.int 0)
          { w with db := w.db.remove (text dest) } := hloop.bind ((remove_runs _ w).bind (.pure _ _))
      rw [storesSet_iff hrun, stored_removed rfl]
      refine (and_iff_left fun key hkey => ?_).symm
      obtain ⟨rfl, hrest⟩ := List.cons_eq_cons.mp hkey
      exact hends.resolve_right fun hcons => hcons hrest
  · next hgoes =>
      obtain ⟨t, hstore, hdb⟩ := @storeSet_runs σ env "sinterstore" dest (first :: rest) ∅ w
      have hrun : Runs (execSInterStore env (dest :: first :: rest)) w (.int 0) t := hloop.bind hstore
      rw [storesSet_iff hrun]
      refine iff_of_false (not_stored_empty (by rw [hdb, DB.slot_put, if_pos rfl])) fun hcond => hgoes (.inl ?_)
      apply hcond.2 (text first)
      rw [List.map_cons, not_not.mp (not_or.mp hgoes).2]

theorem execSDiffStore_iff (hne : args ≠ []) (h : OfSets env w (args.map text)) :
    StoresSet (execSDiffStore env (dest :: args)) w (text dest) (InFirstOnly w (args.map text)) ↔
      (∀ x, ¬ InFirstOnly w (args.map text) x) ∧ ∀ key keys, args.map text = key :: keys →
        heldAt w key = none ∨ ∃ key ∈ keys, heldAt w key ≠ none := by
  obtain ⟨first, rest, rfl⟩ := List.exists_cons_of_ne_nil hne
  have hloop := diffLoop_runs h
  split at hloop
  · next hends =>
      have hrun : Runs (execSDiffStore env (dest :: first :: rest)) w (.int 0)
          { w with db := w.db.remove (text dest) } := hloop.bind ((remove_runs _ w).bind (.pure _ _))
      rw [storesSet_iff hrun, stored_removed rfl]
      refine (and_iff_left fun key keys hkey => ?_).symm
      obtain ⟨rfl, rfl⟩ := List.cons_eq_cons.mp hkey
      exact hends
  · next hgoes =>
      obtain ⟨t, hstore, hdb⟩ := @storeSet_runs σ env "sdiffstore" dest (first :: rest) ∅ w
      have hrun : Runs (execSDiffStore env (dest :: first :: rest)) w (.int 0) t := hloop.bind hstore
      rw [storesSet_iff hrun]
      exact iff_of_false (not_stored_empty (by rw [hdb, DB.slot_put, if_pos rfl])) fun hcond =>
        hgoes (hcond.2 _ _ rfl)

theorem execSUnionStore_iff (h : OfSets env w (args.map text)) :
    StoresSet (execSUnionStore env (dest :: args)) w (text dest) (InSome w (args.map text)) ↔
      ∀ key ∈ args.map text, heldAt w key = none := by
  rcases unionLoop_runs h with ⟨hloop, hnone⟩ | ⟨r, hloop, ⟨key, hkey, hsome⟩, -⟩
  · have hrun : Runs (execSUnionStore env (dest :: args)) w .emptyMultiBulk
        { w with db := w.db.remove (text dest) } := hloop.bind ((remove_runs _ w).bind (.pure _ _))
    rw [storesSet_iff hrun, stored_removed rfl]
    refine iff_of_true ?_ hnone
    rintro x ⟨key, hkey, hx⟩
    rw [membersAt_of_none (hnone key hkey)] at hx
    exact Finset.notMem_empty x hx
  · obtain ⟨t, hstore, hdb⟩ := @storeSet_runs σ env "sunionstore" dest args r
      { w with db := w.db.remove (text dest) }
    have hrun : Runs (execSUnionStore env (dest :: args)) w (.int 0) t := hloop.bind ((remove_runs _ w).bind hstore)
    rw [storesSet_iff hrun]
    exact iff_of_false (not_stored_empty (by rw [hdb, DB.slot_put, if_pos rfl])) fun hcond =>
      hsome (hcond key hkey)

/-- The commands compute the set in these cases only: the members of the first set that is there
never come to the result. -/
theorem set_algebra_iff (hne : args ≠ []) (h : OfSets env w (args.map text)) (dest : Slice) :
    (RepliesSet (execSInter env args) w (InAll w (args.map text)) ↔ ∀ x, ¬ InAll w (args.map text) x) ∧
    (RepliesSet (execSUnion env args) w (InSome w (args.map text)) ↔
      ∀ x, InSome w (args.map text) x → InSome w (afterFirst w (args.map text)) x) ∧
    (RepliesSet (execSDiff env args) w (InFirstOnly w (args.map text)) ↔
      ∀ x, ¬ InFirstOnly w (args.map text) x) ∧
    (StoresSet (execSInterStore env (dest :: args)) w (text dest) (InAll w (args.map text)) ↔
      (∀ x, ¬ InAll w (args.map text) x) ∧ ∀ key, args.map text = [key] → heldAt w key = none) ∧
    (StoresSet (execSUnionStore env (dest :: args)) w (text dest) (InSome w (args.map text)) ↔
      ∀ key ∈ args.map text, heldAt w key = none) ∧
    (StoresSet (execSDiffStore env (dest :: args)) w (text dest) (InFirstOnly w (args.map text)) ↔
      (∀ x, ¬ InFirstOnly w (args.map text) x) ∧ ∀ key keys, args.map text = key :: keys →
        heldAt w key = none ∨ ∃ key ∈ keys, heldAt w key ≠ none) :=
  ⟨execSInter_iff hne h, execSUnion_iff h, execSDiff_iff hne h, execSInterStore_iff hne h, execSUnionStore_iff h,
    execSDiffStore_iff hne h⟩

theorem oneMember_ofSets (keys : List Bytes) : OfSets (Env.plain 0) oneMember keys := by
  refine ⟨fun key => rfl, fun key _ => ?_⟩
  by_cases hkey : key = bytes "k"
  · subst hkey
    exact .inr ⟨_, oneMember_data⟩
  · have hdata : oneMember.db.data.lookup key = none := Finmap.lookup_insert_of_ne _ hkey
    exact .inl hdata

theorem set_algebra_iff_oneMember :
    RepliesSet (execSInter (Env.plain 0) [some (bytes "k"), some (bytes "x")]) oneMember
        (InAll oneMember [bytes "k", bytes "x"]) ∧
      StoresSet (execSInterStore (Env.plain 0) [some (bytes "k"), some (bytes "k"), some (bytes "x")]) oneMember
        (bytes "k") (InAll oneMember [bytes "k", bytes "x"]) := by
  have hall := set_algebra_iff (show [some (bytes "k"), some (bytes "x")] ≠ [] by decide)
    (oneMember_ofSets _) (some (bytes "k"))
  have hnone (x : Bytes) : ¬ InAll oneMember [bytes "k", bytes "x"] x := by
    intro h
    have hx := h (bytes "x") (by decide)
    have habsent : heldAt oneMember (bytes "x") = none := by
      rw [heldAt, oneMember]
      rw [Finmap.lookup_insert_of_ne _ (by decide)]
      rfl
    rw [membersAt_of_none habsent] at hx
    exact Finset.notMem_empty x hx
  refine ⟨hall.1.mpr hnone, hall.2.2.2.1.mpr ⟨hnone, fun key hkey => ?_⟩⟩
  exact absurd (List.cons_eq_cons.mp hkey).2 (by decide)

/-- The intersection of a set alone is answered as empty. -/
theorem sInter_loses_set :
    ¬ RepliesSet (execSInter (Env.plain 0) [some (bytes "k")]) oneMember (InAll oneMember [bytes "k"]) := by
  have hiff := execSInter_iff (show [some (bytes "k")] ≠ [] by decide) (oneMember_ofSets _)
  intro h
  apply hiff.mp h (bytes "a")
  intro key hkey
  obtain rfl : key = bytes "k" := List.mem_singleton.mp hkey
  have hheld : heldAt oneMember (bytes "k") = some {bytes "a"} := by
    rw [heldAt, oneMember_data]
    rfl
  rw [membersAt_of_some hheld]
  exact Finset.mem_singleton_self _

end Traitor.Database
