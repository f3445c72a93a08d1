import Traitor.Dicts

namespace Traitor.Dicts

open Lib.FiniteMaps Lib.Shards

variable {β : Type}

inductive Op (β : Type) where
  | put (key : Bytes) (val : β)
  | putIfAbsent (key : Bytes) (val : β)
  | putIfExists (key : Bytes) (val : β)
  | remove (key : Bytes)
  | get (key : Bytes)
  | len
  | forEach (it : Iteration β) (consumer : Consumer β)
  | clear

inductive Ret (β : Type) where
  | int (n : Int)
  | value (val : Option β)
  | visited (entries : List (Bytes × β))
  | done

def after (m : GoMap β) : Op β → GoMap β
  | .put key val => m.insert key val
  | .putIfAbsent key val => if (m.lookup key).isSome then m else m.insert key val
  | .putIfExists key val => if (m.lookup key).isSome then m.insert key val else m
  | .remove key => m.erase key
  | .clear => ∅
  | .get _ | .len | .forEach _ _ => m

/-- What a finite map may answer. A loop visits its entries in some order, up to the one where the
consumer stops. -/
def Answers (m : GoMap β) : Op β → Ret β → Prop
  | .put key _, ret => ret = .int (if (m.lookup key).isSome then 0 else 1)
  | .putIfAbsent key _, ret => ret = .int (if (m.lookup key).isSome then 0 else 1)
  | .putIfExists key _, ret => ret = .int (if (m.lookup key).isSome then 1 else 0)
  | .remove key, ret => ret = .int (if (m.lookup key).isSome then 1 else 0)
  | .get key, ret => ret = .value (m.lookup key)
  | .len, ret => ret = .int m.keys.card
  | .forEach _ consumer, ret => ∃ entries, Enumerates m entries ∧ ret = .visited (visit consumer [] entries)
  | .clear, ret => ret = .done

def AnswersAll : GoMap β → List (Op β) → List (Ret β) → Prop
  | _, [], rets => rets = []
  | m, op :: ops, rets => ∃ ret rest, rets = ret :: rest ∧ Answers m op ret ∧ AnswersAll (after m op) ops rest

namespace SimpleDict

def step (d : SimpleDict β) : Op β → SimpleDict β × Ret β
  | .put key val => (d.put key val).map id .int
  | .putIfAbsent key val => (d.putIfAbsent key val).map id .int
  | .putIfExists key val => (d.putIfExists key val).map id .int
  | .remove key => (d.remove key).map id .int
  | .get key => (d, .value (d.get key))
  | .len => (d, .int d.len)
  | .forEach it consumer => (d, .visited (d.forEach it consumer))
  | .clear => (d.clear, .done)

def results : SimpleDict β → List (Op β) → List (Ret β)
  | _, [] => []
  | d, op :: ops => (d.step op).2 :: results (d.step op).1 ops

theorem step_spec (d : SimpleDict β) (op : Op β) :
    (d.step op).1.m = after d.m op ∧ Answers d.m op (d.step op).2 := by
  cases op with
  | put key val => exact ⟨rfl, rfl⟩
  | putIfAbsent key val =>
      rw [step, putIfAbsent, after, Answers]
      split <;> exact ⟨rfl, rfl⟩
  | putIfExists key val =>
      rw [step, putIfExists, after, Answers]
      split <;> exact ⟨rfl, rfl⟩
  | remove key =>
      rw [step, remove, after, Answers]
      split
      · exact ⟨rfl, rfl⟩
      · next hkey =>
          refine ⟨?_, rfl⟩
          refine (Finmap.ext_lookup fun k => ?_).symm
          by_cases hk : k = key
          · subst hk
            rw [Finmap.lookup_erase]
            exact (Option.not_isSome_iff_eq_none.mp hkey).symm
          · exact Finmap.lookup_erase_ne hk
  | get | len | clear => exact ⟨rfl, rfl⟩
  | forEach it consumer => exact ⟨rfl, it.order d.m, it.enumerates d.m, rfl⟩

theorem results_answer (d : SimpleDict β) (ops : List (Op β)) : AnswersAll d.m ops (d.results ops) := by
  induction ops generalizing d with
  | nil => rfl
  | cons op ops ih =>
      obtain ⟨hm, hret⟩ := d.step_spec op
      exact ⟨_, _, rfl, hret, hm ▸ ih (d.step op).1⟩

end SimpleDict

namespace ConcurrentDict

/-- None is a panic. -/
def step (maxAlloc : Nat) (d : ConcurrentDict β) : Op β → Option (ConcurrentDict β × Ret β)
  | .put key val => (d.put key val).map (Prod.map id .int)
  | .putIfAbsent key val => (d.putIfAbsent key val).map (Prod.map id .int)
  | .putIfExists key val => (d.putIfExists key val).map (Prod.map id .int)
  | .remove key => (d.remove key).map (Prod.map id .int)
  | .get key => (d.get key).map fun val => (d, .value val)
  | .len => some (d, .int d.len)
  | .forEach it consumer => some (d, .visited (d.forEach it consumer))
  | .clear => (clear maxAlloc d).map fun d => (d, .done)

def results (maxAlloc : Nat) : ConcurrentDict β → List (Op β) → Option (List (Ret β))
  | _, [] => some []
  | d, op :: ops => (d.step maxAlloc op).bind fun r => (results maxAlloc r.1 ops).map (r.2 :: ·)

/-- The dict holds the map, and was told so many times since it was made to remove a key it had. -/
structure Refines (d : ConcurrentDict β) (m : GoMap β) (removed : Nat) : Prop where
  pos : 0 < d.table.length
  splits : Splits (fun key => (d.spread (hash key)).toNat) m d.table
  count : d.count = wrap32 (m.keys.card + removed)

def removedAfter (m : GoMap β) (removed : Nat) : Op β → Nat
  | .remove key => if (m.lookup key).isSome then removed + 1 else removed
  | .clear => 0
  | _ => removed

structure Run (β : Type) where
  dict : ConcurrentDict β
  map : GoMap β
  removed : Nat

def started (maxAlloc : Nat) (shardCount : BitVec 64) : Option (Run β) :=
  (makeConcurrentDict maxAlloc shardCount).map fun d => ⟨d, ∅, 0⟩

def Run.next (maxAlloc : Nat) (r : Run β) (op : Op β) : Option (Run β) :=
  (r.dict.step maxAlloc op).map fun p => ⟨p.1, after r.map op, removedAfter r.map r.removed op⟩

def Run.afterAll (maxAlloc : Nat) (r : Run β) (ops : List (Op β)) : Option (Run β) :=
  ops.foldlM (Run.next maxAlloc) r

def Run.Fits (maxAlloc : Nat) (r : Run β) : Op β → Prop
  | .len => 2 ^ 32 ∣ r.removed ∧ r.map.keys.card < 2 ^ 31
  | .forEach it consumer => ¬ StopsEarly consumer [] (r.dict.table.map it.order)
  | .clear => Allocates maxAlloc (computeCapacity r.dict.shardCount)
  | _ => True

def Run.AllFit (maxAlloc : Nat) (r : Run β) (ops : List (Op β)) : Prop :=
  ∀ before op rest r', ops = before ++ op :: rest → r.afterAll maxAlloc before = some r' → r'.Fits maxAlloc op

variable {d : ConcurrentDict β} {m m' : GoMap β} {removed removed' maxAlloc : Nat} {key : Bytes}
  {shard shard' : GoMap β}

theorem spread_lt (hpos : 0 < d.table.length) (hashCode : UInt32) :
    (d.spread hashCode).toNat < d.table.length := by
  have hle : (d.spread hashCode).toNat ≤ (UInt32.ofNat d.table.length - 1).toNat := by
    rw [spread, UInt32.toNat_and]
    exact Nat.and_le_left
  rw [UInt32.toNat_sub, UInt32.toNat_ofNat', UInt32.toNat_one] at hle
  omega

theorem Refines.getShard (h : Refines d m removed) (key : Bytes) :
    ∃ shard, d.table[(d.spread (hash key)).toNat]? = some shard ∧ shard.lookup key = m.lookup key :=
  ⟨_, List.getElem?_eq_getElem (spread_lt h.pos _),
    h.splits.lookup (k := key) (List.getElem?_eq_getElem (spread_lt h.pos _))⟩

theorem add_one_ne_zero {n : BitVec 64} (h : ¬ n.slt 0#64 = true) : n + 1#64 ≠ 0#64 := by
  intro hzero
  have hn : n = 18446744073709551615#64 := by bv_omega
  rw [hn] at h
  exact h (by decide)

theorem computeCapacity_ne_zero (param : BitVec 64) : computeCapacity param ≠ 0#64 := by
  rw [computeCapacity]
  split
  · decide
  · dsimp only
    split
    · decide
    · next hn => exact add_one_ne_zero hn

theorem make_refines {shardCount : BitVec 64} (h : makeConcurrentDict maxAlloc shardCount = some d) :
    Refines d ∅ 0 := by
  rw [makeConcurrentDict] at h
  split at h
  · cases h
    have hpos : 0 < (computeCapacity shardCount).toNat := by
      rw [Nat.pos_iff_ne_zero, ne_eq, ← BitVec.toNat_zero (w := 64), BitVec.toNat_inj]
      exact computeCapacity_ne_zero shardCount
    refine ⟨by rwa [List.length_replicate], splits_empty _ _, ?_⟩
    have hzero : wrap32 ((0 : Nat) + (0 : Nat)) = 0 := by decide
    rw [Finmap.keys_empty, Finset.card_empty]
    exact hzero.symm
  · cases h

theorem spread_congr {d' : ConcurrentDict β} (h : d'.table.length = d.table.length) : d'.spread = d.spread := by
  funext hashCode
  rw [spread, spread, h]

/-- A write of the shard of a key. -/
theorem Refines.write (h : Refines d m removed) (hshard : d.table[(d.spread (hash key)).toNat]? = some shard)
    {value : Option β} (hm : ∀ k, m'.lookup k = if k = key then value else m.lookup k)
    (hs : ∀ k, shard'.lookup k = if k = key then value else shard.lookup k) {count : Int}
    (hcount : count = wrap32 (m'.keys.card + removed')) :
    Refines { d.setShard (d.spread (hash key)) shard' with count := count } m' removed' := by
  have hlen : (d.table.set (d.spread (hash key)).toNat shard').length = d.table.length := List.length_set
  refine ⟨hlen ▸ h.pos, ?_, hcount⟩
  rw [spread_congr hlen]
  exact h.splits.update hshard hm hs

theorem card_insert (m : GoMap β) (key : Bytes) (val : β) :
    (m.insert key val).keys.card = if (m.lookup key).isSome then m.keys.card else m.keys.card + 1 := by
  have hkeys : (m.insert key val).keys = insert key m.keys := by
    ext k
    rw [Finmap.mem_keys, Finmap.mem_insert, Finset.mem_insert, Finmap.mem_keys]
  rw [hkeys]
  split
  · next hkey => rw [Finset.insert_eq_of_mem (Finmap.mem_keys.mpr (Finmap.lookup_isSome.mp hkey))]
  · next hkey => exact Finset.card_insert_of_notMem fun hmem => hkey (Finmap.lookup_isSome.mpr (Finmap.mem_keys.mp hmem))

theorem card_erase (m : GoMap β) (key : Bytes) (h : (m.lookup key).isSome) :
    (m.erase key).keys.card + 1 = m.keys.card := by
  rw [Finmap.keys_erase]
  exact Finset.card_erase_add_one (Finmap.mem_keys.mpr (Finmap.lookup_isSome.mp h))

/-- The count of the present keys is kept by adding one for a new key. -/
theorem Refines.insert (h : Refines d m removed) (hshard : d.table[(d.spread (hash key)).toNat]? = some shard)
    (val : β) :
    Refines
      (if (m.lookup key).isSome then d.setShard (d.spread (hash key)) (shard.insert key val)
        else (d.setShard (d.spread (hash key)) (shard.insert key val)).addCount)
      (m.insert key val) removed := by
  have hcard := card_insert m key val
  split
  · next hkey =>
      rw [if_pos hkey] at hcard
      exact h.write hshard (lookup_insert_ite m key val) (lookup_insert_ite shard key val)
        (by rw [hcard]; exact h.count)
  · next hkey =>
      rw [if_neg hkey] at hcard
      apply h.write hshard (lookup_insert_ite m key val) (lookup_insert_ite shard key val)
      change wrap32 (d.count + 1) = _
      rw [h.count, hcard, wrap32, wrap32, Int.bmod_add_bmod, wrap32]
      congr 1
      omega

/-- The count stays as it is when a key is removed. -/
theorem Refines.erase (h : Refines d m removed) (hshard : d.table[(d.spread (hash key)).toNat]? = some shard)
    (hkey : (m.lookup key).isSome) :
    Refines (d.setShard (d.spread (hash key)) (shard.erase key)) (m.erase key) (removed + 1) := by
  apply h.write hshard (lookup_erase_ite m key) (lookup_erase_ite shard key)
  have hcard := card_erase m key hkey
  change d.count = _
  rw [h.count]
  congr 1
  omega

theorem count_iff (n removed : Nat) :
    wrap32 (n + removed) = n ↔ 2 ^ 32 ∣ removed ∧ n < 2 ^ 31 := by
  rw [wrap32, Int.bmod_def]
  omega

theorem Refines.forEach_iff (h : Refines d m removed) (it : Iteration β) (consumer : Consumer β) :
    Answers m (.forEach it consumer) (.visited (d.forEach it consumer)) ↔
      ¬ StopsEarly consumer [] (d.table.map it.order) := by
  constructor
  · rintro ⟨entries, -, hvisited⟩ hstops
    apply not_obeys_of_stopsEarly hstops
    have hsame : d.forEach it consumer = visit consumer [] entries := Ret.visited.inj hvisited
    rw [forEach] at hsame
    rw [hsame]
    exact visit_obeys consumer entries
  · intro hstops
    refine ⟨(d.table.map it.order).flatten, ?_, congrArg Ret.visited (visitAll_eq hstops)⟩
    apply h.splits.enumerates (fun key => spread_lt h.pos _)
    rw [List.forall₂_map_right_iff]
    exact List.forall₂_same.mpr fun shard _ => it.enumerates shard

/-- An operation answers as the map exactly when it fits, and what it leaves is the map after it. -/
theorem Refines.step (h : Refines d m removed) (maxAlloc : Nat) (op : Op β) :
    (d.step maxAlloc op = none ∧ ¬ (Run.mk d m removed).Fits maxAlloc op) ∨
      ∃ d' ret, d.step maxAlloc op = some (d', ret) ∧ Refines d' (after m op) (removedAfter m removed op) ∧
        (Answers m op ret ↔ (Run.mk d m removed).Fits maxAlloc op) := by
  cases op with
  | put key val =>
      obtain ⟨shard, hshard, hlookup⟩ := h.getShard key
      refine .inr ⟨_, _, ?_, h.insert hshard val, iff_of_true rfl trivial⟩
      rw [ConcurrentDict.step, put, ConcurrentDict.getShard, hshard, Option.map_some, Option.map_some, hlookup]
      split <;> rfl
  | putIfAbsent key val =>
      obtain ⟨shard, hshard, hlookup⟩ := h.getShard key
      have hins := h.insert hshard val
      rw [ConcurrentDict.step, putIfAbsent, ConcurrentDict.getShard, hshard, Option.map_some, Option.map_some,
        hlookup, after]
      split
      · next hkey => exact .inr ⟨_, _, rfl, h, iff_of_true (congrArg Ret.int (if_pos hkey).symm) trivial⟩
      · next hkey =>
          rw [if_neg hkey] at hins
          exact .inr ⟨_, _, rfl, hins, iff_of_true (congrArg Ret.int (if_neg hkey).symm) trivial⟩
  | putIfExists key val =>
      obtain ⟨shard, hshard, hlookup⟩ := h.getShard key
      have hins := h.insert hshard val
      rw [ConcurrentDict.step, putIfExists, ConcurrentDict.getShard, hshard, Option.map_some, Option.map_some,
        hlookup, after]
      split
      · next hkey =>
          rw [if_pos hkey] at hins
          exact .inr ⟨_, _, rfl, hins, iff_of_true (congrArg Ret.int (if_pos hkey).symm) trivial⟩
      · next hkey => exact .inr ⟨_, _, rfl, h, iff_of_true (congrArg Ret.int (if_neg hkey).symm) trivial⟩
  | remove key =>
      obtain ⟨shard, hshard, hlookup⟩ := h.getShard key
      rw [ConcurrentDict.step, remove, ConcurrentDict.getShard, hshard, Option.map_some, Option.map_some,
        hlookup, after, removedAfter]
      split
      · next hkey =>
          exact .inr ⟨_, _, rfl, h.erase hshard hkey, iff_of_true (congrArg Ret.int (if_pos hkey).symm) trivial⟩
      · next hkey =>
          have hsame : m.erase key = m := erase_absent (Option.not_isSome_iff_eq_none.mp hkey)
          exact .inr ⟨_, _, rfl, hsame.symm ▸ h, iff_of_true (congrArg Ret.int (if_neg hkey).symm) trivial⟩
  | get key =>
      obtain ⟨shard, hshard, hlookup⟩ := h.getShard key
      refine .inr ⟨d, .value (m.lookup key), ?_, h, iff_of_true rfl trivial⟩
      rw [ConcurrentDict.step, get, ConcurrentDict.getShard, hshard, Option.map_some, Option.map_some, hlookup]
  | len =>
      refine .inr ⟨d, .int d.len, rfl, h, ?_⟩
      rw [Answers, Run.Fits, Ret.int.injEq, len, h.count]
      exact count_iff m.keys.card removed
  | forEach it consumer => exact .inr ⟨d, _, rfl, h, h.forEach_iff it consumer⟩
  | clear =>
      rw [ConcurrentDict.step, clear, after, removedAfter, Run.Fits]
      by_cases halloc : Allocates maxAlloc (computeCapacity d.shardCount)
      · have hmake := make_refines (β := β) (d := ⟨_, 0, computeCapacity d.shardCount⟩) (if_pos halloc)
        exact .inr ⟨_, _, congrArg _ (if_pos halloc), hmake, iff_of_true rfl halloc⟩
      · exact .inl ⟨congrArg _ (if_neg halloc), halloc⟩

theorem Run.allFit_cons (maxAlloc : Nat) (r : Run β) (op : Op β) (ops : List (Op β)) :
    r.AllFit maxAlloc (op :: ops) ↔
      r.Fits maxAlloc op ∧ ∀ r', r.next maxAlloc op = some r' → r'.AllFit maxAlloc ops := by
  constructor
  · refine fun h => ⟨h [] op ops r rfl rfl, fun r' hr' before op' rest r'' hops hr'' => ?_⟩
    apply h (op :: before) op' rest r'' (congrArg _ hops)
    rw [afterAll, List.foldlM_cons, hr']
    exact hr''
  · rintro ⟨hfit, hrest⟩ before op' rest r'' hops hr''
    cases before with
    | nil =>
        cases hops
        cases hr''
        exact hfit
    | cons _ before =>
        cases hops
        rw [afterAll, List.foldlM_cons] at hr''
        obtain ⟨r', hr', hr''⟩ := Option.bind_eq_some_iff.mp hr''
        exact hrest r' hr' before op' rest r'' rfl hr''

theorem Refines.results (h : Refines d m removed) (ops : List (Op β)) :
    (∃ rets, d.results maxAlloc ops = some rets ∧ AnswersAll m ops rets) ↔
      (Run.mk d m removed).AllFit maxAlloc ops := by
  induction ops generalizing d m removed with
  | nil =>
      refine iff_of_true ⟨[], rfl, rfl⟩ fun before op rest r' hops => ?_
      exact absurd hops.symm (List.append_ne_nil_of_right_ne_nil before (List.cons_ne_nil op rest))
  | cons op ops ih =>
      rw [Run.allFit_cons, ConcurrentDict.results, Run.next]
      rcases h.step maxAlloc op with ⟨hpanic, hfit⟩ | ⟨d', ret, hstep, hrefines, hfit⟩
      · rw [hpanic]
        refine iff_of_false ?_ fun hall => hfit hall.1
        rintro ⟨rets, hrets, -⟩
        cases hrets
      · rw [hstep, ← hfit, Option.map_some, Option.bind_some]
        have hrest := ih hrefines
        constructor
        · rintro ⟨rets, hrets, ret', rest, rfl, hanswer, hanswers⟩
          obtain ⟨rest', hrest', hcons⟩ := Option.map_eq_some_iff.mp hrets
          cases hcons
          refine ⟨hanswer, fun r' hr' => ?_⟩
          cases hr'
          exact hrest.mp ⟨_, hrest', hanswers⟩
        · rintro ⟨hanswer, hall⟩
          obtain ⟨rest, hrest', hanswers⟩ := hrest.mpr (hall _ rfl)
          exact ⟨ret :: rest, by rw [hrest', Option.map_some], ret, rest, rfl, hanswer, hanswers⟩

theorem Refines.next (h : Refines d m removed) (maxAlloc : Nat) (op : Op β)
    (hfit : (Run.mk d m removed).Fits maxAlloc op) :
    ∃ d', (Run.mk d m removed).next maxAlloc op = some ⟨d', after m op, removedAfter m removed op⟩ ∧
      Refines d' (after m op) (removedAfter m removed op) := by
  rcases h.step maxAlloc op with ⟨-, hnot⟩ | ⟨d', ret, hstep, hrefines, -⟩
  · exact absurd hfit hnot
  · exact ⟨d', by rw [Run.next, hstep, Option.map_some], hrefines⟩

theorem Run.refines_afterAll {r r' : Run β} (h : r.dict.Refines r.map r.removed) {ops : List (Op β)}
    (hrun : r.afterAll maxAlloc ops = some r') : r'.dict.Refines r'.map r'.removed := by
  induction ops generalizing r with
  | nil =>
      cases hrun
      exact h
  | cons op ops ih =>
      rw [afterAll, List.foldlM_cons] at hrun
      obtain ⟨next, hnext, hrest⟩ := Option.bind_eq_some_iff.mp hrun
      refine ih ?_ hrest
      rw [Run.next] at hnext
      rcases h.step maxAlloc op with ⟨hpanic, -⟩ | ⟨d', ret, hstep, hrefines, -⟩
      · rw [hpanic] at hnext
        cases hnext
      · rw [hstep] at hnext
        cases hnext
        exact hrefines

theorem started_refines {r : Run β} {shardCount : BitVec 64} (h : started maxAlloc shardCount = some r) :
    r.dict.Refines r.map r.removed := by
  obtain ⟨d, hd, rfl⟩ := Option.map_eq_some_iff.mp h
  exact make_refines hd

/-- Every result is that of a finite map exactly when the shards can be allocated, the length is asked
for after no removals but a multiple of `2 ^ 32` of them, and no consumer stops with entries left in
later shards. -/
theorem concurrent_dict_refines_iff (maxAlloc : Nat) (shardCount : BitVec 64) (ops : List (Op β)) :
    AnswersAll ∅ ops (SimpleDict.makeSimple.results ops) ∧
      ((∃ rets, ((makeConcurrentDict maxAlloc shardCount).bind fun d => d.results maxAlloc ops) = some rets ∧
          AnswersAll ∅ ops rets) ↔
        Allocates maxAlloc (computeCapacity shardCount) ∧
          ∀ r, started maxAlloc shardCount = some r → r.AllFit maxAlloc ops) := by
  refine ⟨SimpleDict.makeSimple.results_answer ops, ?_⟩
  rw [started]
  by_cases halloc : Allocates maxAlloc (computeCapacity shardCount)
  · have hmake : makeConcurrentDict (β := β) maxAlloc shardCount = some _ := if_pos halloc
    rw [hmake, Option.bind_some, Option.map_some, (make_refines hmake).results, and_iff_right halloc]
    constructor
    · intro hall r hr
      cases hr
      exact hall
    · exact fun hall => hall _ rfl
  · have hmake : makeConcurrentDict (β := β) maxAlloc shardCount = none := if_neg halloc
    rw [hmake]
    refine iff_of_false ?_ fun h => halloc h.1
    rintro ⟨rets, hrets, -⟩
    cases hrets

/-- The removed key is still counted. -/
theorem removed_key_counted :
    ¬ ∃ rets, ((makeConcurrentDict (2 ^ 48) 16#64).bind fun d =>
        d.results (2 ^ 48) [Op.put [97] (), .remove [97], .len]) = some rets ∧
      AnswersAll ∅ [Op.put [97] (), .remove [97], .len] rets := by
  have hmake : ∃ d, makeConcurrentDict (β := Unit) (2 ^ 48) 16#64 = some d := by
    rw [makeConcurrentDict, if_pos (by decide)]
    exact ⟨_, rfl⟩
  obtain ⟨d, hd⟩ := hmake
  obtain ⟨d₁, hput, h₁⟩ := (make_refines hd).next (2 ^ 48) (.put [97] ()) trivial
  obtain ⟨d₂, hremove, -⟩ := h₁.next (2 ^ 48) (.remove [97]) trivial
  rw [hd, Option.bind_some, (make_refines hd).results, Run.allFit_cons]
  rintro ⟨-, hall⟩
  have hlen := (Run.allFit_cons _ _ _ _).mp (((Run.allFit_cons _ _ _ _).mp (hall _ hput)).2 _ hremove)
  have hone : removedAfter (after ∅ (.put [97] ())) (removedAfter ∅ 0 (.put [97] ())) (.remove [97]) = 1 := by
    have hpresent : ((after ∅ (.put [97] ())).lookup [97]).isSome := by
      rw [show after ∅ (.put [97] ()) = Finmap.insert [97] () ∅ from rfl, Finmap.lookup_insert]
      rfl
    rw [removedAfter, if_pos hpresent]
    rfl
  have hdvd : 2 ^ 32 ∣ removedAfter (after ∅ (.put [97] ())) (removedAfter ∅ 0 (.put [97] ())) (.remove [97]) :=
    hlen.1.1
  rw [hone] at hdvd
  exact absurd hdvd (by decide)

end ConcurrentDict

end Traitor.Dicts
