import Mathlib.Data.Finmap
import Mathlib.Tactic.Common

namespace Traitor.Lib.Shards

section

variable {K V : Type} [DecidableEq K]

structure Enumerates (m : Finmap fun _ : K => V) (l : List (K × V)) : Prop where
  nodup : (l.map Prod.fst).Nodup
  mem : ∀ k v, (k, v) ∈ l ↔ m.lookup k = some v

theorem exists_enumerates (m : Finmap fun _ : K => V) : ∃ l, Enumerates m l := by
  refine ⟨m.entries.toList.map fun entry => (entry.1, entry.2), ?_, fun k v => ?_⟩
  · rw [List.map_map, ← Multiset.coe_nodup, ← Multiset.map_coe, Multiset.coe_toList]
    exact m.keys.nodup
  · rw [List.mem_map]
    constructor
    · rintro ⟨⟨k', v'⟩, hentry, heq⟩
      cases heq
      exact Finmap.lookup_eq_some_iff.mpr (Multiset.mem_toList.mp hentry)
    · intro h
      exact ⟨⟨k, v⟩, Multiset.mem_toList.mpr (Finmap.lookup_eq_some_iff.mp h), rfl⟩

theorem Enumerates.mem_keys {m : Finmap fun _ : K => V} {l : List (K × V)} (h : Enumerates m l) (k : K) :
    k ∈ l.map Prod.fst ↔ k ∈ m := by
  rw [List.mem_map, Finmap.mem_iff]
  constructor
  · rintro ⟨⟨k', v⟩, hmem, rfl⟩
    exact ⟨v, (h.mem _ _).mp hmem⟩
  · rintro ⟨v, hv⟩
    exact ⟨(k, v), (h.mem _ _).mpr hv, rfl⟩

/-- The shard at each position holds what the map has under the keys of that position. -/
def Splits (index : K → Nat) (m : Finmap fun _ : K => V) (table : List (Finmap fun _ : K => V)) : Prop :=
  ∀ i shard, table[i]? = some shard → ∀ k, shard.lookup k = if index k = i then m.lookup k else none

variable {index : K → Nat} {m m' : Finmap fun _ : K => V} {table : List (Finmap fun _ : K => V)}
  {shard shard' : Finmap fun _ : K => V} {k : K}

theorem splits_empty (index : K → Nat) (n : Nat) :
    Splits index (∅ : Finmap fun _ : K => V) (List.replicate n ∅) := by
  intro i shard hshard k
  obtain ⟨-, rfl⟩ := List.getElem?_eq_some_iff.mp hshard
  simp

theorem Splits.lookup (h : Splits index m table) (hshard : table[index k]? = some shard) :
    shard.lookup k = m.lookup k := by
  rw [h _ _ hshard, if_pos rfl]

/-- A change under one key is a change of its shard. -/
theorem Splits.update (h : Splits index m table) (hshard : table[index k]? = some shard)
    {value : Option V} (hm : ∀ k', m'.lookup k' = if k' = k then value else m.lookup k')
    (hs : ∀ k', shard'.lookup k' = if k' = k then value else shard.lookup k') :
    Splits index m' (table.set (index k) shard') := by
  intro i other hother k'
  rw [hm]
  by_cases hi : index k = i
  · subst hi
    obtain ⟨hlt, -⟩ := List.getElem?_eq_some_iff.mp hshard
    rw [List.getElem?_set_self hlt] at hother
    cases hother
    rw [hs, h _ _ hshard]
    by_cases hk : k' = k
    · rw [if_pos hk, if_pos hk, if_pos (by rw [hk])]
    · rw [if_neg hk, if_neg hk]
  · rw [List.getElem?_set_ne hi] at hother
    rw [h _ _ hother]
    by_cases hk : k' = k
    · rw [if_neg (by rw [hk]; exact hi), if_neg (by rw [hk]; exact hi)]
    · rw [if_neg hk]

variable {groups : List (List (K × V))}

/-- The entries of a shard are those of the map whose keys have its position. -/
theorem Splits.mem_group (h : Splits index m table) (hgroups : List.Forall₂ Enumerates table groups)
    {i : Nat} (hi : i < groups.length) (k : K) (v : V) :
    (k, v) ∈ groups[i] ↔ index k = i ∧ m.lookup k = some v := by
  have hi' : i < table.length := hgroups.length_eq ▸ hi
  have hgroup : Enumerates table[i] groups[i] := hgroups.get hi' hi
  rw [hgroup.mem, h i _ (List.getElem?_eq_getElem hi')]
  split
  · next hk => exact (and_iff_right hk).symm
  · next hk => exact iff_of_false (by simp) fun hv => hk hv.1

/-- No key is in two shards, and none is twice in one. -/
theorem Splits.nodup_groups (h : Splits index m table) (hgroups : List.Forall₂ Enumerates table groups) :
    (groups.flatten.map Prod.fst).Nodup := by
  rw [List.map_flatten, List.nodup_flatten]
  constructor
  · intro keys hkeys
    obtain ⟨group, hg, rfl⟩ := List.mem_map.mp hkeys
    obtain ⟨i, hi, rfl⟩ := List.getElem_of_mem hg
    have hgroup : Enumerates (table.get ⟨i, hgroups.length_eq ▸ hi⟩) groups[i] := hgroups.get _ hi
    exact hgroup.nodup
  · rw [List.pairwise_map, List.pairwise_iff_getElem]
    intro i j hi hj hij k hki hkj
    obtain ⟨⟨_, v⟩, hv, rfl⟩ := List.mem_map.mp hki
    obtain ⟨⟨_, v'⟩, hv', rfl⟩ := List.mem_map.mp hkj
    have hij' : i = j :=
      ((h.mem_group hgroups hi _ _).mp hv).1.symm.trans ((h.mem_group hgroups hj _ _).mp hv').1
    omega

/-- One shard after the other has the entries of the map. -/
theorem Splits.enumerates (h : Splits index m table) (hindex : ∀ k, index k < table.length)
    (hgroups : List.Forall₂ Enumerates table groups) : Enumerates m groups.flatten := by
  refine ⟨h.nodup_groups hgroups, fun k v => ?_⟩
  rw [List.mem_flatten]
  constructor
  · rintro ⟨group, hg, hkv⟩
    obtain ⟨i, hi, rfl⟩ := List.getElem_of_mem hg
    exact ((h.mem_group hgroups hi k v).mp hkv).2
  · intro hv
    have hi : index k < groups.length := hgroups.length_eq ▸ hindex k
    exact ⟨_, List.getElem_mem hi, (h.mem_group hgroups hi k v).mpr ⟨rfl, hv⟩⟩

end

section

variable {α : Type} {consumer : List α → Bool} {visited l : List α} {groups : List (List α)}

/-- A loop that hands over one element after the other, as long as it is told to go on. What it is
told may depend on all that has been handed over. -/
def visit (consumer : List α → Bool) : List α → List α → List α
  | visited, [] => visited
  | visited, a :: l => if consumer (visited ++ [a]) then visit consumer (visited ++ [a]) l else visited ++ [a]

/-- The loops over several groups, of which each ends for itself. -/
def visitAll (consumer : List α → Bool) (visited : List α) (groups : List (List α)) : List α :=
  groups.foldl (visit consumer) visited

def Proceeds (consumer : List α → Bool) (visited l : List α) : Prop :=
  ∀ pre, pre ≠ [] → pre <+: l → consumer (visited ++ pre) = true

def StopsEarly (consumer : List α → Bool) (visited : List α) (groups : List (List α)) : Prop :=
  ∃ before pre a post after, groups = before ++ (pre ++ a :: post) :: after ∧
    Proceeds consumer visited (before.flatten ++ pre) ∧
    consumer (visited ++ (before.flatten ++ pre) ++ [a]) = false ∧ after.flatten ≠ []

/-- Nothing is visited after the consumer has stopped. -/
def Obeys (consumer : List α → Bool) (l : List α) : Prop :=
  ∀ pre post, l = pre ++ post → pre ≠ [] → post ≠ [] → consumer pre = true

theorem proceeds_nil (consumer : List α → Bool) (visited : List α) : Proceeds consumer visited [] :=
  fun _ hne hpre => absurd (List.prefix_nil.mp hpre) hne

theorem proceeds_cons {a : α} : Proceeds consumer visited (a :: l) ↔
    consumer (visited ++ [a]) = true ∧ Proceeds consumer (visited ++ [a]) l := by
  constructor
  · intro h
    refine ⟨h [a] (by simp) (by simp), fun pre hne hpre => ?_⟩
    have hgo := h (a :: pre) (by simp) (by simpa using hpre)
    rwa [List.append_assoc, List.singleton_append]
  · rintro ⟨ha, hl⟩ pre hne hpre
    cases pre with
    | nil => exact absurd rfl hne
    | cons b pre =>
        obtain ⟨rfl, hrest⟩ := List.cons_prefix_cons.mp hpre
        by_cases hnil : pre = []
        · rw [hnil, ha]
        · have hgo := hl pre hnil hrest
          rwa [List.append_assoc, List.singleton_append] at hgo

theorem proceeds_append {l' : List α} : Proceeds consumer visited (l ++ l') ↔
    Proceeds consumer visited l ∧ Proceeds consumer (visited ++ l) l' := by
  induction l generalizing visited with
  | nil => simp [proceeds_nil]
  | cons a l ih =>
      rw [List.cons_append, proceeds_cons, proceeds_cons, ih, and_assoc, List.append_assoc,
        List.singleton_append]

theorem visit_of_proceeds (h : Proceeds consumer visited l) (l' : List α) :
    visit consumer visited (l ++ l') = visit consumer (visited ++ l) l' := by
  induction l generalizing visited with
  | nil => simp
  | cons a l ih =>
      obtain ⟨ha, hl⟩ := proceeds_cons.mp h
      rw [List.cons_append, visit, if_pos ha, ih hl, List.append_assoc, List.singleton_append]

theorem visit_of_stop {pre post : List α} {a : α} (h : Proceeds consumer visited pre)
    (ha : consumer (visited ++ pre ++ [a]) = false) :
    visit consumer visited (pre ++ a :: post) = visited ++ pre ++ [a] := by
  rw [visit_of_proceeds h, visit, if_neg (by rw [ha]; exact Bool.false_ne_true)]

/-- A list is visited as a whole, or up to the element where the consumer stops. -/
theorem proceeds_or_stops (consumer : List α → Bool) (visited l : List α) :
    Proceeds consumer visited l ∨ ∃ pre a post, l = pre ++ a :: post ∧
      Proceeds consumer visited pre ∧ consumer (visited ++ pre ++ [a]) = false := by
  induction l generalizing visited with
  | nil => exact .inl (proceeds_nil consumer visited)
  | cons a l ih =>
      cases ha : consumer (visited ++ [a]) with
      | false => exact .inr ⟨[], a, l, rfl, proceeds_nil consumer visited, by simpa using ha⟩
      | true =>
          rcases ih (visited ++ [a]) with h | ⟨pre, b, post, rfl, hpre, hb⟩
          · exact .inl (proceeds_cons.mpr ⟨ha, h⟩)
          · refine .inr ⟨a :: pre, b, post, rfl, proceeds_cons.mpr ⟨ha, hpre⟩, ?_⟩
            simpa using hb

theorem visit_obeys (consumer : List α → Bool) (l : List α) : Obeys consumer (visit consumer [] l) := by
  intro pre post hsplit hpre hpost
  have hproceeds (l' : List α) (h : Proceeds consumer [] l') (hp : pre <+: l') : consumer pre = true := by
    have hgo := h pre hpre hp
    rwa [List.nil_append] at hgo
  rcases proceeds_or_stops consumer [] l with h | ⟨front, a, back, rfl, hfront, ha⟩
  · have hl := visit_of_proceeds h []
    rw [List.append_nil, List.nil_append, visit] at hl
    exact hproceeds l h ⟨post, (hl.symm.trans hsplit).symm⟩
  · rw [visit_of_stop hfront ha, List.nil_append] at hsplit
    apply hproceeds front hfront
    obtain ⟨mid, b, rfl⟩ := (List.eq_nil_or_concat' post).resolve_left hpost
    rw [← List.append_assoc] at hsplit
    obtain ⟨hmid, -⟩ := List.append_inj' hsplit rfl
    exact ⟨mid, hmid.symm⟩

theorem visitAll_cons (consumer : List α → Bool) (visited group : List α) (groups : List (List α)) :
    visitAll consumer visited (group :: groups) = visitAll consumer (visit consumer visited group) groups :=
  rfl

/-- What has been visited stays so, and a group that is not empty adds to it. -/
theorem visitAll_extends (consumer : List α → Bool) (visited : List α) (groups : List (List α)) :
    ∃ rest, visitAll consumer visited groups = visited ++ rest ∧ (groups.flatten ≠ [] → rest ≠ []) := by
  induction groups generalizing visited with
  | nil => exact ⟨[], by simp [visitAll], by simp⟩
  | cons group groups ih =>
      have hgroup : ∃ more, visit consumer visited group = visited ++ more ∧ (group ≠ [] → more ≠ []) := by
        rcases proceeds_or_stops consumer visited group with h | ⟨pre, a, post, rfl, hpre, ha⟩
        · have hl := visit_of_proceeds h []
          rw [List.append_nil, visit] at hl
          exact ⟨group, hl, id⟩
        · exact ⟨pre ++ [a], by rw [visit_of_stop hpre ha, List.append_assoc], by simp⟩
      obtain ⟨more, hmore, hne⟩ := hgroup
      obtain ⟨rest, hrest, hne'⟩ := ih (visit consumer visited group)
      refine ⟨more ++ rest, by rw [visitAll_cons, hrest, hmore, List.append_assoc], fun hflat hnil => ?_⟩
      obtain ⟨rfl, rfl⟩ := List.append_eq_nil_iff.mp hnil
      rw [List.flatten_cons, ne_eq, List.append_eq_nil_iff, not_and_or] at hflat
      rcases hflat with hflat | hflat
      · exact hne hflat rfl
      · exact hne' hflat rfl

/-- Unless the consumer stops with groups left, the loops do what one loop over all groups does. -/
theorem visitAll_eq (h : ¬ StopsEarly consumer visited groups) :
    visitAll consumer visited groups = visit consumer visited groups.flatten := by
  induction groups generalizing visited with
  | nil => rfl
  | cons group groups ih =>
      rw [visitAll_cons, List.flatten_cons]
      rcases proceeds_or_stops consumer visited group with hgo | ⟨pre, a, post, rfl, hpre, ha⟩
      · have hl := visit_of_proceeds hgo []
        rw [List.append_nil, visit] at hl
        rw [visit_of_proceeds hgo, hl]
        refine ih fun ⟨before, pre, a, post, after, hgroups, hbefore, ha, hafter⟩ => h ?_
        refine ⟨group :: before, pre, a, post, after, by rw [hgroups, List.cons_append], ?_, ?_, hafter⟩
        · rw [List.flatten_cons, List.append_assoc, proceeds_append]
          exact ⟨hgo, hbefore⟩
        · simpa using ha
      · have hempty : groups.flatten = [] := by
          by_contra hne
          exact h ⟨[], pre, a, post, groups, rfl, by simpa using hpre, by simpa using ha, hne⟩
        obtain ⟨rest, hrest, -⟩ := visitAll_extends consumer (visited ++ pre ++ [a]) groups
        have hsame : ∀ (gs : List (List α)) (v : List α), gs.flatten = [] → visitAll consumer v gs = v := by
          intro gs
          induction gs with
          | nil => exact fun v _ => rfl
          | cons g gs ih' =>
              intro v hg
              obtain ⟨rfl, hgs⟩ := List.append_eq_nil_iff.mp hg
              exact ih' v hgs
        rw [visit_of_stop hpre ha, hsame groups _ hempty, hempty, List.append_nil, visit_of_stop hpre ha]

/-- Loops that stop early visit more than they shall. -/
theorem not_obeys_of_stopsEarly (h : StopsEarly consumer [] groups) :
    ¬ Obeys consumer (visitAll consumer [] groups) := by
  obtain ⟨before, pre, a, post, after, rfl, hbefore, ha, hafter⟩ := h
  rw [proceeds_append] at hbefore
  have hfront : visitAll consumer [] (before ++ (pre ++ a :: post) :: after) =
      visitAll consumer (before.flatten ++ pre ++ [a]) after := by
    have hgroups : ∀ (gs : List (List α)) (v : List α), Proceeds consumer v gs.flatten →
        visitAll consumer v gs = v ++ gs.flatten := by
      intro gs
      induction gs with
      | nil => exact fun v _ => by simp [visitAll]
      | cons g gs ih =>
          intro v hg
          rw [List.flatten_cons, proceeds_append] at hg
          have hl := visit_of_proceeds hg.1 []
          rw [List.append_nil, visit] at hl
          rw [visitAll_cons, hl, ih _ hg.2, List.flatten_cons, List.append_assoc]
    have hsplit := hgroups before [] hbefore.1
    rw [visitAll] at hsplit ⊢
    rw [List.foldl_append, hsplit, List.foldl_cons, visit_of_stop hbefore.2 (by simpa using ha)]
    rfl
  obtain ⟨rest, hrest, hne⟩ := visitAll_extends consumer (before.flatten ++ pre ++ [a]) after
  intro hobeys
  have htrue := hobeys _ rest (hfront.trans hrest) (by simp) (hne hafter)
  rw [List.nil_append] at ha
  rw [ha] at htrue
  exact Bool.false_ne_true htrue

end

end Traitor.Lib.Shards
