import Traitor.DictRefinement

namespace Traitor.Dicts

open Lib.Shards

variable {β : Type} {m : GoMap β} {l ks : List Bytes}

/-- Some choices give a list, and every list that is given is good. -/
def Yields {ι : Type} (results : ι → Option (List Bytes)) (good : List Bytes → Prop) : Prop :=
  (∃ i, (results i).isSome) ∧ ∀ i l, results i = some l → good l

structure Lists (m : GoMap β) (l : List Bytes) : Prop where
  nodup : l.Nodup
  mem : ∀ key, key ∈ l ↔ key ∈ m

structure SamplesDistinct (m : GoMap β) (limit : Nat) (l : List Bytes) : Prop where
  length : l.length = min limit m.keys.card
  nodup : l.Nodup
  mem : ∀ key ∈ l, key ∈ m

structure Samples (m : GoMap β) (limit : Int) (l : List Bytes) : Prop where
  mem : ∀ key ∈ l, key ∈ m
  length : limit < m.keys.card → (l.length : Int) = limit

theorem Lists.length (h : Lists m l) : l.length = m.keys.card := by
  have hkeys : l.toFinset = m.keys := by
    ext key
    rw [List.mem_toFinset, h.mem, Finmap.mem_keys]
  rw [← List.toFinset_card_of_nodup h.nodup, hkeys]

/-- A part of the listed keys is all of them exactly when it is as long. -/
theorem Lists.sublist_iff (h : Lists m ks) (hl : l.Sublist ks) : Lists m l ↔ l.length = m.keys.card := by
  refine ⟨Lists.length, fun hlen => ?_⟩
  rwa [hl.eq_of_length (hlen.trans h.length.symm)]

theorem Lists.samplesDistinct_iff (h : Lists m ks) (hl : l.Sublist ks) (limit : Nat) :
    SamplesDistinct m limit l ↔ l.length = min limit m.keys.card :=
  ⟨fun hs => hs.length, fun hlen => ⟨hlen, h.nodup.sublist hl, fun key hk => (h.mem key).mp (hl.subset hk)⟩⟩

theorem Lists.samples_iff (h : Lists m ks) (hl : l.Sublist ks) (limit : Int) :
    Samples m limit l ↔ (limit < m.keys.card → (l.length : Int) = limit) :=
  ⟨fun hs => hs.length, fun hlen => ⟨fun key hk => (h.mem key).mp (hl.subset hk), hlen⟩⟩

/-- Empty strings next to the keys are either no keys or repeat one. -/
theorem Lists.padded_nodup (h : Lists m ks) {n : Nat} (hn : n ≠ 0)
    (hmem : ∀ key ∈ List.replicate n [] ++ ks, key ∈ m) : ¬ (List.replicate n [] ++ ks).Nodup := by
  obtain ⟨n, rfl⟩ := Nat.exists_eq_succ_of_ne_zero hn
  intro hnodup
  have hempty : ([] : Bytes) ∈ ks := (h.mem []).mpr (hmem [] (by simp [List.replicate_succ]))
  rw [List.nodup_append] at hnodup
  exact hnodup.2.2 [] (by simp [List.replicate_succ]) [] hempty rfl

theorem Lists.padded_iff (h : Lists m ks) (n : Nat) : Lists m (List.replicate n [] ++ ks) ↔ n = 0 := by
  constructor
  · intro hlist
    by_contra hn
    exact h.padded_nodup hn (fun key hk => (hlist.mem key).mp hk) hlist.nodup
  · rintro rfl
    exact h

theorem Lists.mem_padded_iff (h : Lists m ks) (n : Nat) :
    (∀ key ∈ List.replicate n [] ++ ks, key ∈ m) ↔ n = 0 ∨ ([] : Bytes) ∈ m := by
  constructor
  · intro hmem
    refine or_iff_not_imp_left.mpr fun hn => hmem [] (List.mem_append_left ks ?_)
    exact List.mem_replicate.mpr ⟨hn, rfl⟩
  · intro hn key hkey
    rcases List.mem_append.mp hkey with hkey | hkey
    · obtain ⟨hne, rfl⟩ := List.mem_replicate.mp hkey
      exact hn.resolve_left hne
    · exact (h.mem key).mp hkey

theorem Iteration.exists : Nonempty (Iteration β) := by
  choose order henum using fun m : GoMap β => exists_enumerates m
  exact ⟨⟨order, henum⟩⟩

theorem Iteration.lists (it : Iteration β) (m : GoMap β) : Lists m (it.keys m) :=
  ⟨(it.enumerates m).nodup, (it.enumerates m).mem_keys⟩

/-- Where every choice gives a list, all of them shall be good. -/
theorem yields_iff {ι : Type} [Nonempty ι] {results : ι → List Bytes} {good : List Bytes → Prop} :
    Yields (fun i => some (results i)) good ↔ ∀ i, good (results i) := by
  constructor
  · exact fun h i => h.2 i _ rfl
  · refine fun h => ⟨⟨Classical.arbitrary ι, rfl⟩, fun i l hl => ?_⟩
    cases hl
    exact h i

theorem not_yields_none {ι : Type} {results : ι → Option (List Bytes)} {good : List Bytes → Prop}
    (h : ∀ i, results i = none) : ¬ Yields results good := by
  rintro ⟨⟨i, hi⟩, -⟩
  rw [h i] at hi
  cases hi

instance : Nonempty (Iteration β) := Iteration.exists

/-- What every choice yields in the same cases is yielded in these. -/
theorem yields_iff_of_each {ι : Type} [Nonempty ι] {results : ι → Option (List Bytes)} {good : List Bytes → Prop}
    {cond : Prop} (h : ∀ i, (∃ l, results i = some l ∧ good l) ↔ cond) : Yields results good ↔ cond := by
  constructor
  · rintro ⟨⟨i, hi⟩, hgood⟩
    obtain ⟨l, hl⟩ := Option.isSome_iff_exists.mp hi
    exact (h i).mp ⟨l, hl, hgood i l hl⟩
  · refine fun hcond => ⟨⟨Classical.arbitrary ι, ?_⟩, fun i l hl => ?_⟩
    · obtain ⟨l, hl, -⟩ := (h (Classical.arbitrary ι)).mpr hcond
      rw [hl]
      rfl
    · obtain ⟨l', hl', hgood⟩ := (h i).mpr hcond
      rw [hl] at hl'
      cases hl'
      exact hgood

namespace SimpleDict

variable (d : SimpleDict β) (it : Iteration β)

/-- The keys are listed only where there are none. -/
theorem keys_iff : Yields (fun it => some (d.keys it)) (Lists d.m) ↔ d.m.keys.card = 0 := by
  apply yields_iff_of_each
  intro it
  rw [← (it.lists d.m).padded_iff]
  constructor
  · rintro ⟨l, hl, hlists⟩
    cases hl
    exact hlists
  · exact fun h => ⟨_, rfl, h⟩

theorem randomKeys_of_le {limit : Int} (h : (d.m.keys.card : Int) ≤ limit) :
    d.randomKeys it limit = some (d.keys it) := if_pos h

theorem randomKeys_of_lt {limit : Nat} (h : limit < d.m.keys.card) :
    d.randomKeys it limit = some ((it.keys d.m).take limit) := by
  rw [randomKeys, len, if_neg (by omega), if_neg (by omega), Int.toNat_natCast]

theorem randomDistinctKeys_samples (limit : Nat) :
    (∃ l, d.randomDistinctKeys it limit = some l ∧ SamplesDistinct d.m limit l) ↔
      limit < d.m.keys.card ∨ d.m.keys.card = 0 := by
  have hlists := it.lists d.m
  rw [randomDistinctKeys]
  by_cases hcard : d.m.keys.card ≤ limit
  · rw [randomKeys_of_le _ _ (by omega)]
    have hlen : (d.keys it).length = d.m.keys.card + d.m.keys.card := by
      rw [keys, List.length_append, List.length_replicate, hlists.length]
    constructor
    · rintro ⟨l, hl, hs⟩
      cases hl
      have heq := hs.length
      rw [hlen] at heq
      omega
    · intro h
      have hkeys := (hlists.padded_iff d.m.keys.card).mpr (by omega)
      exact ⟨_, rfl, by rw [hlen]; omega, hkeys.nodup, fun key => (hkeys.mem key).mp⟩
  · rw [randomKeys_of_lt _ _ (by omega)]
    refine iff_of_true ⟨_, rfl, ?_⟩ (.inl (by omega))
    rw [hlists.samplesDistinct_iff (List.take_sublist _ _), List.length_take, hlists.length]

theorem randomKeys_mem_iff (limit : Int) :
    (∃ l, d.randomKeys it limit = some l ∧ ∀ key ∈ l, key ∈ d.m) ↔
      0 ≤ limit ∧ (limit < d.m.keys.card ∨ d.m.keys.card = 0 ∨ ([] : Bytes) ∈ d.m) := by
  have hlists := it.lists d.m
  by_cases hneg : limit < 0
  · rw [randomKeys, len, if_neg (by omega), if_pos hneg]
    refine iff_of_false ?_ (by omega)
    rintro ⟨l, hl, -⟩
    cases hl
  · lift limit to Nat using by omega
    rw [and_iff_right (by omega)]
    by_cases hcard : d.m.keys.card ≤ limit
    · rw [randomKeys_of_le _ _ (by omega), or_iff_right (by omega), ← hlists.mem_padded_iff]
      constructor
      · rintro ⟨l, hl, hmem⟩
        cases hl
        exact hmem
      · exact fun h => ⟨_, rfl, h⟩
    · rw [randomKeys_of_lt _ _ (by omega)]
      refine iff_of_true ⟨_, rfl, fun key hkey => ?_⟩ (.inl (by omega))
      exact (hlists.mem key).mp (List.mem_of_mem_take hkey)

theorem randomKeys_samples (limit : Int) :
    (∃ l, d.randomKeys it limit = some l ∧ Samples d.m limit l) ↔
      0 ≤ limit ∧ (limit < d.m.keys.card ∨ d.m.keys.card = 0 ∨ ([] : Bytes) ∈ d.m) := by
  rw [← d.randomKeys_mem_iff it]
  refine exists_congr fun l => and_congr_right fun hl => ⟨fun hs => hs.mem, fun hmem => ⟨hmem, fun hlt => ?_⟩⟩
  rw [randomKeys, len, if_neg (by omega)] at hl
  split at hl
  · cases hl
  · cases hl
    rw [List.length_take, (it.lists d.m).length]
    omega

end SimpleDict

namespace ConcurrentDict

/-- Every second key, and the last one of an odd number. -/
def survivors : List Bytes → List Bytes
  | [] => []
  | [key] => [key]
  | _ :: key :: rest => key :: survivors rest

def kept (count : Nat) (ks : List Bytes) : List Bytes := ks.take count ++ survivors (ks.drop count)

def listed (count card : Nat) : Nat := min count card + (card - count + 1) / 2

theorem survivors_sublist (l : List Bytes) : (survivors l).Sublist l := by
  induction l using survivors.induct with
  | case1 => exact .slnil
  | case2 key => exact .refl _
  | case3 a key rest ih =>
      rw [survivors]
      exact (ih.cons_cons key).cons a

theorem survivors_length (l : List Bytes) : (survivors l).length = (l.length + 1) / 2 := by
  induction l using survivors.induct with
  | case1 => rfl
  | case2 key => rw [survivors, List.length_singleton]
  | case3 a key rest ih =>
      rw [survivors, List.length_cons, List.length_cons, List.length_cons, ih]
      omega

theorem kept_sublist (count : Nat) (ks : List Bytes) : (kept count ks).Sublist ks := by
  have h := (List.Sublist.refl (ks.take count)).append (survivors_sublist (ks.drop count))
  rwa [List.take_append_drop] at h

theorem kept_length (count : Nat) (ks : List Bytes) : (kept count ks).length = listed count ks.length := by
  rw [kept, List.length_append, List.length_take, survivors_length, List.length_drop, listed]

/-- A key that has been appended is written over by the next one. -/
theorem fill_full (keys l : List Bytes) : fill keys keys.length l = keys ++ survivors l := by
  induction l using survivors.induct generalizing keys with
  | case1 => rw [fill, survivors, List.append_nil]
  | case2 key => rw [fill, if_neg (Nat.lt_irrefl _), fill, survivors]
  | case3 a key rest ih =>
      have hset : (keys ++ [a]).set keys.length key = keys ++ [key] := by
        rw [List.set_append_right _ _ (Nat.le_refl _), Nat.sub_self, List.set_cons_zero]
      have hlen : keys.length + 1 = (keys ++ [key]).length := by rw [List.length_append, List.length_singleton]
      rw [fill, if_neg (Nat.lt_irrefl _), fill, if_pos (by rw [List.length_append, List.length_singleton]; omega),
        hset, hlen, ih, survivors, List.append_assoc, List.singleton_append]

theorem fill_front (front l l' : List Bytes) (n : Nat) :
    fill (front ++ List.replicate (l.length + n) []) front.length (l ++ l') =
      fill (front ++ l ++ List.replicate n []) (front.length + l.length) l' := by
  induction l generalizing front with
  | nil => rw [List.length_nil, Nat.zero_add, List.nil_append, List.append_nil, Nat.add_zero]
  | cons a l ih =>
      have hset : (front ++ List.replicate ((a :: l).length + n) []).set front.length a =
          front ++ [a] ++ List.replicate (l.length + n) [] := by
        rw [List.set_append_right _ _ (Nat.le_refl _), Nat.sub_self, List.length_cons, Nat.succ_add,
          List.replicate_succ, List.set_cons_zero, List.append_assoc, List.singleton_append]
      have hfront := ih (front ++ [a])
      rw [List.length_append, List.length_singleton] at hfront
      have hlt : front.length < (front ++ List.replicate ((a :: l).length + n) []).length := by
        rw [List.length_append, List.length_replicate, List.length_cons]
        omega
      rw [List.cons_append, fill, if_pos hlt, hset, hfront, List.append_assoc front, List.singleton_append,
        List.length_cons, Nat.add_assoc, Nat.add_comm 1]

/-- The keys that are kept, and the places that stay empty. -/
theorem fill_keys (count : Nat) (ks : List Bytes) :
    fill (List.replicate count []) 0 ks = kept count ks ++ List.replicate (count - ks.length) [] := by
  have hfront := fill_front [] (ks.take count) (ks.drop count) (count - ks.length)
  have hcount : (ks.take count).length + (count - ks.length) = count := by
    rw [List.length_take]
    omega
  rw [hcount, List.take_append_drop, List.nil_append, List.nil_append, List.length_nil, Nat.zero_add] at hfront
  rw [hfront, kept]
  by_cases hle : count ≤ ks.length
  · rw [Nat.sub_eq_zero_of_le hle, List.replicate_zero, List.append_nil, List.append_nil, fill_full]
  · rw [List.drop_of_length_le (by omega), fill, survivors, List.append_nil]

variable {d : ConcurrentDict β} {removed : Nat} {key : Bytes}

theorem Refines.lists (h : Refines d m removed) (it : Iteration β) :
    Lists m ((d.forEach it fun _ => true).map Prod.fst) := by
  have hgoes : ¬ StopsEarly (fun _ : List (Bytes × β) => true) [] (d.table.map it.order) := by
    rintro ⟨_, _, _, _, _, _, _, hstop, _⟩
    cases hstop
  obtain ⟨entries, henum, hvisited⟩ := (h.forEach_iff it fun _ => true).mpr hgoes
  have hall : visit (fun _ => true) [] (entries ++ []) = visit (fun _ => true) ([] ++ entries) [] :=
    visit_of_proceeds (fun _ _ _ => rfl) []
  rw [List.append_nil, List.nil_append, visit] at hall
  rw [Ret.visited.inj hvisited, hall]
  exact ⟨henum.nodup, henum.mem_keys⟩

theorem Refines.keys_eq (h : Refines d m removed) {count : Nat} (hcount : d.count = count) (it : Iteration β) :
    ∃ ks, Lists m ks ∧ d.keys it = some (kept count ks ++ List.replicate (count - m.keys.card) []) := by
  refine ⟨_, h.lists it, ?_⟩
  rw [keys, len, hcount, if_neg (by omega), Int.toNat_natCast, fill_keys, (h.lists it).length]

/-- What holds of the listed keys for any order of them is what the listing yields. -/
theorem Refines.yields_keys (h : Refines d m removed) {ι : Type} [Nonempty ι] (f : ι → Iteration β)
    {good : List Bytes → Prop} {cond : Prop}
    (hgood : ∀ count : Nat, d.count = count → ∀ ks, Lists m ks →
      (good (kept count ks ++ List.replicate (count - m.keys.card) []) ↔ cond)) :
    Yields (fun i => d.keys (f i)) good ↔ 0 ≤ d.count ∧ cond := by
  by_cases hneg : d.count < 0
  · have hpanic (i : ι) : d.keys (f i) = none := if_pos hneg
    exact iff_of_false (not_yields_none hpanic) (by omega)
  · obtain ⟨count, hcount⟩ := Int.eq_ofNat_of_zero_le (Int.not_lt.mp hneg)
    choose ks hks hkeys using fun i => h.keys_eq hcount (f i)
    rw [funext hkeys, yields_iff, and_iff_right (by omega)]
    constructor
    · exact fun hall => (hgood count hcount _ (hks (Classical.arbitrary ι))).mp (hall _)
    · exact fun hcond i => (hgood count hcount _ (hks i)).mpr hcond

theorem Refines.keys_iff (h : Refines d m removed) :
    Yields (fun it => d.keys it) (Lists m) ↔
      0 ≤ d.count ∧ (d.count = m.keys.card ∨ d.count + 1 = m.keys.card) := by
  apply h.yields_keys id
  intro count hcount ks hks
  have hlisted := kept_length count ks
  rw [hks.length, listed] at hlisted
  by_cases hle : count ≤ m.keys.card
  · rw [Nat.sub_eq_zero_of_le hle, List.replicate_zero, List.append_nil, hks.sublist_iff (kept_sublist count ks)]
    omega
  · rw [hcount]
    refine iff_of_false (fun hlists => ?_) (by omega)
    have hlen := hlists.length
    rw [List.length_append, List.length_replicate] at hlen
    omega

theorem Refines.randomDistinctKeys_keys_iff (h : Refines d m removed) {limit : Nat} (hlimit : d.count ≤ limit) :
    Yields (fun draw : Iteration β × List (Draw β) × Iteration Bool =>
        d.randomDistinctKeys draw.1 draw.2.1 draw.2.2 limit) (SamplesDistinct m limit) ↔
      0 ≤ d.count ∧ d.count ≤ m.keys.card ∧ listed d.count.toNat m.keys.card = min limit m.keys.card := by
  have hkeys (draw : Iteration β × List (Draw β) × Iteration Bool) :
      d.randomDistinctKeys draw.1 draw.2.1 draw.2.2 limit = d.keys draw.1 := if_pos hlimit
  have : Nonempty (Iteration β × List (Draw β) × Iteration Bool) :=
    ⟨Classical.arbitrary _, [], Classical.arbitrary _⟩
  rw [funext hkeys]
  apply h.yields_keys Prod.fst
  intro count hcount ks hks
  have hlisted := kept_length count ks
  rw [hks.length] at hlisted
  rw [hcount, Int.toNat_natCast]
  by_cases hle : count ≤ m.keys.card
  · rw [Nat.sub_eq_zero_of_le hle, List.replicate_zero, List.append_nil,
      hks.samplesDistinct_iff (kept_sublist count ks), hlisted, and_iff_right (by omega)]
  · refine iff_of_false (fun hs => ?_) (by omega)
    have hlen := hs.length
    rw [List.length_append, List.length_replicate, hlisted, listed] at hlen
    omega

theorem Refines.randomKeys_keys_iff (h : Refines d m removed) {limit : Int} (hlimit : d.count ≤ limit) :
    Yields (fun draw : Iteration β × List (Draw β) => d.randomKeys draw.1 draw.2 limit) (Samples m limit) ↔
      0 ≤ d.count ∧
        if d.count ≤ m.keys.card then limit < m.keys.card → (listed d.count.toNat m.keys.card : Int) = limit
        else ([] : Bytes) ∈ m := by
  have hkeys (draw : Iteration β × List (Draw β)) : d.randomKeys draw.1 draw.2 limit = d.keys draw.1 :=
    if_pos hlimit
  have : Nonempty (Iteration β × List (Draw β)) := ⟨Classical.arbitrary _, []⟩
  rw [funext hkeys]
  apply h.yields_keys Prod.fst
  intro count hcount ks hks
  have hlisted := kept_length count ks
  rw [hks.length] at hlisted
  rw [hcount, Int.toNat_natCast]
  by_cases hle : count ≤ m.keys.card
  · rw [Nat.sub_eq_zero_of_le hle, List.replicate_zero, List.append_nil,
      hks.samples_iff (kept_sublist count ks), hlisted, if_pos (by omega)]
  · have hall : kept count ks = ks := by
      apply (kept_sublist count ks).eq_of_length
      rw [hlisted, hks.length, listed]
      omega
    rw [if_neg (by omega), hall]
    have hmem : (∀ key ∈ ks ++ List.replicate (count - m.keys.card) [], key ∈ m) ↔ ([] : Bytes) ∈ m := by
      have hpadded := hks.mem_padded_iff (count - m.keys.card)
      rw [or_iff_right (by omega)] at hpadded
      rw [← hpadded]
      exact forall_congr' fun key => imp_congr_left List.perm_append_comm.mem_iff
    rw [← hmem]
    exact ⟨fun hs => hs.mem, fun hs => ⟨hs, fun hlt => by omega⟩⟩

theorem exists_iteration_first (key : Bytes) :
    ∃ it : Iteration β, ∀ m : GoMap β, key ∈ m → ∃ rest, it.keys m = key :: rest := by
  have hfirst (m : GoMap β) : ∃ l, Enumerates m l ∧ (key ∈ m → ∃ rest, l.map Prod.fst = key :: rest) := by
    obtain ⟨l, hl⟩ := exists_enumerates m
    by_cases hkey : key ∈ m
    · obtain ⟨v, hv⟩ := Finmap.mem_iff.mp hkey
      obtain ⟨l₁, l₂, rfl⟩ := List.append_of_mem ((hl.mem key v).mpr hv)
      have hp : (l₁ ++ (key, v) :: l₂).Perm ((key, v) :: (l₁ ++ l₂)) := List.perm_middle
      refine ⟨(key, v) :: (l₁ ++ l₂), ⟨(hp.map Prod.fst).nodup_iff.mp hl.nodup, fun k w => ?_⟩, fun _ => ⟨_, rfl⟩⟩
      rw [← hp.mem_iff, hl.mem]
    · exact ⟨l, hl, fun h => absurd h hkey⟩
  choose order henum hhead using hfirst
  exact ⟨⟨order, henum⟩, hhead⟩

theorem Refines.drawKey (h : Refines d m removed) (draw : Draw β) :
    ∃ key, d.drawKey draw = some key ∧ (key ≠ [] → key ∈ m) := by
  have hlt : (UInt32.ofNat (intn draw.random d.table.length)).toNat < d.table.length := by
    have hmod := Nat.mod_lt draw.random h.pos
    rw [UInt32.toNat_ofNat', intn]
    omega
  refine ⟨_, by rw [ConcurrentDict.drawKey, ConcurrentDict.getShard, List.getElem?_eq_getElem hlt, Option.map_some],
    fun hne => ?_⟩
  have hlists := draw.it.lists d.table[(UInt32.ofNat (intn draw.random d.table.length)).toNat]
  rw [randomKey] at hne ⊢
  cases hkeys : draw.it.keys d.table[(UInt32.ofNat (intn draw.random d.table.length)).toNat] with
  | nil =>
      rw [hkeys] at hne
      exact absurd rfl hne
  | cons key rest =>
      have hmem := (hlists.mem key).mp (by rw [hkeys]; exact List.mem_cons_self)
      obtain ⟨v, hv⟩ := Finmap.mem_iff.mp hmem
      rw [h.splits _ _ (List.getElem?_eq_getElem hlt)] at hv
      split at hv
      · exact Finmap.mem_iff.mpr ⟨v, hv⟩
      · cases hv

theorem Refines.exists_draw (h : Refines d m removed) (hkey : key ∈ m) : ∃ draw, d.drawKey draw = some key := by
  obtain ⟨it, hfirst⟩ := exists_iteration_first (β := β) key
  obtain ⟨shard, hshard, hlookup⟩ := h.getShard key
  obtain ⟨rest, hkeys⟩ := hfirst shard (by
    rw [← Finmap.lookup_isSome, hlookup, Finmap.lookup_isSome]
    exact hkey)
  refine ⟨⟨(d.spread (hash key)).toNat, it⟩, ?_⟩
  rw [ConcurrentDict.drawKey, intn, Nat.mod_eq_of_lt (spread_lt h.pos _), UInt32.ofNat_toNat,
    ConcurrentDict.getShard, hshard, Option.map_some, randomKey, hkeys, List.headD_cons]

theorem Refines.randomKeysLoop_some (h : Refines d m removed) {limit : Nat} {draws : List (Draw β)}
    {result : List Bytes} (hloop : d.randomKeysLoop limit draws result = some l) (hle : result.length ≤ limit)
    (hresult : ∀ key ∈ result, key ∈ m) : l.length = limit ∧ ∀ key ∈ l, key ∈ m := by
  induction draws generalizing result with
  | nil =>
      rw [randomKeysLoop] at hloop
      split at hloop
      · next hlen =>
          cases hloop
          exact ⟨Nat.le_antisymm hle hlen, hresult⟩
      · cases hloop
  | cons draw draws ih =>
      rw [randomKeysLoop] at hloop
      split at hloop
      · next hlen =>
          cases hloop
          exact ⟨Nat.le_antisymm hle hlen, hresult⟩
      · next hlen =>
          obtain ⟨key, hdraw, hkey⟩ := h.drawKey draw
          rw [hdraw, Option.bind_some] at hloop
          by_cases hne : key = []
          · rw [if_neg (not_not.mpr hne)] at hloop
            exact ih hloop hle hresult
          · rw [if_pos hne] at hloop
            apply ih hloop (by rw [List.length_append, List.length_singleton]; omega)
            intro k hk
            rcases List.mem_append.mp hk with hk | hk
            · exact hresult k hk
            · rw [List.mem_singleton.mp hk]
              exact hkey hne

theorem Refines.randomKeysLoop_finishes (h : Refines d m removed) (hkey : key ∈ m) (hne : key ≠ []) (limit : Nat)
    (result : List Bytes) : ∃ draws, (d.randomKeysLoop limit draws result).isSome := by
  obtain ⟨draw, hdraw⟩ := h.exists_draw hkey
  induction hn : limit - result.length generalizing result with
  | zero =>
      refine ⟨[], ?_⟩
      rw [randomKeysLoop, if_pos (by omega)]
      rfl
  | succ n ih =>
      obtain ⟨draws, hdraws⟩ := ih (result ++ [key]) (by rw [List.length_append, List.length_singleton]; omega)
      refine ⟨draw :: draws, ?_⟩
      rwa [randomKeysLoop, if_neg (by omega), hdraw, Option.bind_some, if_pos hne]

theorem Refines.randomKeysLoop_stuck (h : Refines d m removed) (hempty : ∀ key ∈ m, key = []) {limit : Nat}
    (hpos : 0 < limit) (draws : List (Draw β)) : d.randomKeysLoop limit draws [] = none := by
  induction draws with
  | nil => exact if_neg (by rw [List.length_nil]; omega)
  | cons draw draws ih =>
      obtain ⟨key, hdraw, hkey⟩ := h.drawKey draw
      have hnil : key = [] := by
        by_contra hne
        exact hne (hempty key (hkey hne))
      rw [randomKeysLoop, if_neg (by rw [List.length_nil]; omega), hdraw, Option.bind_some,
        if_neg (not_not.mpr hnil), ih]

theorem Refines.randomKeys_draws_iff (h : Refines d m removed) {limit : Int} (hlimit : limit < d.count) :
    Yields (fun draw : Iteration β × List (Draw β) => d.randomKeys draw.1 draw.2 limit) (Samples m limit) ↔
      0 ≤ limit ∧ (limit = 0 ∨ ∃ key ∈ m, key ≠ []) := by
  have hcount : ¬ d.len ≤ limit := by
    rw [len]
    omega
  by_cases hneg : limit < 0
  · have hpanic (draw : Iteration β × List (Draw β)) : d.randomKeys draw.1 draw.2 limit = none := by
      rw [randomKeys, if_neg hcount, if_pos hneg]
    exact iff_of_false (not_yields_none hpanic) (by omega)
  · lift limit to Nat using by omega
    have hloop (draw : Iteration β × List (Draw β)) :
        d.randomKeys draw.1 draw.2 limit = d.randomKeysLoop limit draw.2 [] := by
      rw [randomKeys, if_neg hcount, if_neg hneg, Int.toNat_natCast]
    rw [funext hloop, and_iff_right (by omega)]
    have hsome (draw : Iteration β × List (Draw β)) (l : List Bytes)
        (hl : d.randomKeysLoop limit draw.2 [] = some l) : Samples m limit l := by
      obtain ⟨hlen, hmem⟩ := h.randomKeysLoop_some hl (Nat.zero_le _) (by simp)
      exact ⟨hmem, fun _ => by rw [hlen]⟩
    have it := Classical.arbitrary (Iteration β)
    constructor
    · rintro ⟨⟨draw, hdraw⟩, -⟩
      by_contra hnot
      rw [not_or] at hnot
      have hempty : ∀ key ∈ m, key = [] := fun key hkey => by
        by_contra hne
        exact hnot.2 ⟨key, hkey, hne⟩
      have hpos : 0 < limit := by omega
      have hstuck := h.randomKeysLoop_stuck hempty hpos draw.2
      dsimp only at hdraw
      rw [hstuck] at hdraw
      cases hdraw
    · rintro (hzero | ⟨key, hkey, hne⟩)
      · obtain rfl : limit = 0 := by omega
        exact ⟨⟨(it, []), rfl⟩, hsome⟩
      · obtain ⟨draws, hdraws⟩ := h.randomKeysLoop_finishes hkey hne limit []
        exact ⟨⟨(it, draws), hdraws⟩, hsome⟩

def drawn (m : GoMap β) : Finset Bytes := m.keys.erase []

theorem mem_drawn : key ∈ drawn m ↔ key ≠ [] ∧ key ∈ m := by
  rw [drawn, Finset.mem_erase, Finmap.mem_keys]

theorem keys_insert_true (result : GoMap Bool) (key : Bytes) :
    (result.insert key true).keys = insert key result.keys := by
  ext k
  rw [Finmap.mem_keys, Finmap.mem_insert, Finset.mem_insert, Finmap.mem_keys]

theorem Refines.randomDistinctKeysLoop_some (h : Refines d m removed) {limit : Nat} {draws : List (Draw β)}
    {result chosen : GoMap Bool} (hloop : d.randomDistinctKeysLoop limit draws result = some chosen)
    (hle : result.keys.card ≤ limit) (hresult : result.keys ⊆ drawn m) :
    chosen.keys.card = limit ∧ chosen.keys ⊆ drawn m := by
  induction draws generalizing result with
  | nil =>
      rw [randomDistinctKeysLoop] at hloop
      split at hloop
      · cases hloop
      · next hlen =>
          cases hloop
          exact ⟨by omega, hresult⟩
  | cons draw draws ih =>
      rw [randomDistinctKeysLoop] at hloop
      split at hloop
      · next hlen =>
          obtain ⟨key, hdraw, hkey⟩ := h.drawKey draw
          rw [hdraw, Option.bind_some] at hloop
          by_cases hne : key = []
          · rw [if_neg (not_not.mpr hne)] at hloop
            exact ih hloop hle hresult
          · rw [if_pos hne] at hloop
            have hcard := Finset.card_insert_le key result.keys
            apply ih hloop (by rw [keys_insert_true]; omega)
            rw [keys_insert_true]
            exact Finset.insert_subset (mem_drawn.mpr ⟨hne, hkey hne⟩) hresult
      · next hlen =>
          cases hloop
          exact ⟨by omega, hresult⟩

theorem Refines.randomDistinctKeysLoop_finishes (h : Refines d m removed) {limit : Nat}
    (hlimit : limit ≤ (drawn m).card) (result : GoMap Bool) (hresult : result.keys ⊆ drawn m) :
    ∃ draws, (d.randomDistinctKeysLoop limit draws result).isSome := by
  induction hn : limit - result.keys.card generalizing result with
  | zero =>
      refine ⟨[], ?_⟩
      rw [randomDistinctKeysLoop, if_neg (by omega)]
      rfl
  | succ n ih =>
      obtain ⟨key, hkey, hnew⟩ := Finset.exists_mem_notMem_of_card_lt_card
        (show result.keys.card < (drawn m).card by omega)
      obtain ⟨hne, hmem⟩ := mem_drawn.mp hkey
      obtain ⟨draw, hdraw⟩ := h.exists_draw hmem
      have hcard : (result.insert key true).keys.card = result.keys.card + 1 := by
        rw [keys_insert_true, Finset.card_insert_of_notMem hnew]
      have hsub : (result.insert key true).keys ⊆ drawn m := by
        rw [keys_insert_true]
        exact Finset.insert_subset hkey hresult
      obtain ⟨draws, hdraws⟩ := ih (result.insert key true) hsub (by omega)
      refine ⟨draw :: draws, ?_⟩
      rwa [randomDistinctKeysLoop, if_pos (by omega), hdraw, Option.bind_some, if_pos hne]

theorem foldl_set_head (a : Bytes) (rest ks : List Bytes) :
    ks.foldl (fun arr key => arr.set 0 key) (a :: rest) = ks.getLastD a :: rest := by
  induction ks generalizing a with
  | nil => rfl
  | cons key ks ih => rw [List.foldl_cons, List.set_cons_zero, ih, List.getLastD_cons]

/-- All keys are put at the first place, so only one of them is left. -/
theorem distinctKeys_eq (it : Iteration Bool) (chosen : GoMap Bool) {n : Nat} (hcard : chosen.keys.card = n + 1) :
    ∃ key ∈ chosen.keys, distinctKeys it chosen = key :: List.replicate n [] := by
  have hlists := it.lists chosen
  obtain ⟨a, ks, hks⟩ : ∃ a ks, it.keys chosen = a :: ks :=
    List.exists_cons_of_length_pos (by rw [hlists.length]; omega)
  refine ⟨ks.getLastD a, ?_, ?_⟩
  · rw [Finmap.mem_keys, ← hlists.mem, hks]
    exact List.getLastD_mem_cons
  · rw [distinctKeys, hks, hcard, List.replicate_succ, List.foldl_cons, List.set_cons_zero, foldl_set_head]

theorem distinctKeys_iff (it : Iteration Bool) {chosen : GoMap Bool} {limit : Nat}
    (hcard : chosen.keys.card = limit) (hsub : chosen.keys ⊆ drawn m) :
    SamplesDistinct m limit (distinctKeys it chosen) ↔ limit ≤ 1 ∨ limit = 2 ∧ ([] : Bytes) ∈ m := by
  have hle : limit ≤ m.keys.card := by
    rw [← hcard]
    exact Finset.card_le_card (hsub.trans (Finset.erase_subset _ _))
  cases limit with
  | zero =>
      refine iff_of_true ?_ (.inl (Nat.zero_le 1))
      have hnil : distinctKeys it chosen = [] := by
        have hks : it.keys chosen = [] := List.eq_nil_of_length_eq_zero (by rw [(it.lists chosen).length, hcard])
        rw [distinctKeys, hks, hcard]
        rfl
      rw [hnil]
      exact ⟨by simp, List.nodup_nil, by simp⟩
  | succ n =>
      obtain ⟨key, hkey, heq⟩ := distinctKeys_eq it chosen hcard
      obtain ⟨hne, hmem⟩ := mem_drawn.mp (hsub hkey)
      have hlen : (key :: List.replicate n ([] : Bytes)).length = min (n + 1) m.keys.card := by
        rw [List.length_cons, List.length_replicate]
        omega
      rw [heq]
      constructor
      · intro hs
        by_contra hnot
        have hn : n ≠ 0 := by
          rintro rfl
          exact hnot (.inl (Nat.le_refl 1))
        have hempty : ([] : Bytes) ∈ m :=
          hs.mem [] (List.mem_cons_of_mem key (List.mem_replicate.mpr ⟨hn, rfl⟩))
        have hrep := List.nodup_replicate.mp (List.nodup_cons.mp hs.nodup).2
        exact hnot (.inr ⟨by omega, hempty⟩)
      · intro hcond
        have hn : n ≤ 1 := by omega
        refine ⟨hlen, ?_, fun k hk => ?_⟩
        · refine List.nodup_cons.mpr ⟨fun hk => hne (List.mem_replicate.mp hk).2, ?_⟩
          exact List.nodup_replicate.mpr hn
        · rcases List.mem_cons.mp hk with rfl | hk
          · exact hmem
          · obtain ⟨hpos, rfl⟩ := List.mem_replicate.mp hk
            rcases hcond with hone | ⟨-, hempty⟩
            · exact absurd hpos (by omega)
            · exact hempty

theorem Refines.randomDistinctKeys_draws_iff (h : Refines d m removed) {limit : Nat} (hlimit : limit < d.count) :
    Yields (fun draw : Iteration β × List (Draw β) × Iteration Bool =>
        d.randomDistinctKeys draw.1 draw.2.1 draw.2.2 limit) (SamplesDistinct m limit) ↔
      limit ≤ (drawn m).card ∧ (limit ≤ 1 ∨ limit = 2 ∧ ([] : Bytes) ∈ m) := by
  have hloop (draw : Iteration β × List (Draw β) × Iteration Bool) :
      d.randomDistinctKeys draw.1 draw.2.1 draw.2.2 limit =
        (d.randomDistinctKeysLoop limit draw.2.1 ∅).map (distinctKeys draw.2.2) := by
    rw [randomDistinctKeys, len, if_neg (by omega)]
  have hempty : (∅ : GoMap Bool).keys ⊆ drawn m := by
    rw [Finmap.keys_empty]
    exact Finset.empty_subset _
  have hsome {draws : List (Draw β)} {chosen : GoMap Bool}
      (hl : d.randomDistinctKeysLoop limit draws ∅ = some chosen) :
      chosen.keys.card = limit ∧ chosen.keys ⊆ drawn m :=
    h.randomDistinctKeysLoop_some hl (by rw [Finmap.keys_empty]; exact Nat.zero_le _) hempty
  rw [funext hloop]
  constructor
  · rintro ⟨⟨draw, hdraw⟩, hgood⟩
    obtain ⟨l, hl⟩ := Option.isSome_iff_exists.mp hdraw
    obtain ⟨chosen, hchosen, rfl⟩ := Option.map_eq_some_iff.mp hl
    obtain ⟨hcard, hsub⟩ := hsome hchosen
    exact ⟨hcard ▸ Finset.card_le_card hsub, (distinctKeys_iff _ hcard hsub).mp (hgood draw _ hl)⟩
  · rintro ⟨hle, hcond⟩
    obtain ⟨draws, hdraws⟩ := h.randomDistinctKeysLoop_finishes hle ∅ hempty
    refine ⟨⟨(Classical.arbitrary _, draws, Classical.arbitrary _), ?_⟩, fun draw l hl => ?_⟩
    · rwa [Option.isSome_map]
    · obtain ⟨chosen, hchosen, rfl⟩ := Option.map_eq_some_iff.mp hl
      obtain ⟨hcard, hsub⟩ := hsome hchosen
      exact (distinctKeys_iff _ hcard hsub).mpr hcond

/-- Where the limit reaches the count all keys are listed, of which there must be as many as are
wanted. Below it one key is left of those that are drawn, and empty strings. -/
def DrawsDistinct (d : ConcurrentDict β) (m : GoMap β) (limit : Nat) : Prop :=
  if d.count ≤ limit then
    0 ≤ d.count ∧ d.count ≤ m.keys.card ∧ listed d.count.toNat m.keys.card = min limit m.keys.card
  else limit ≤ (drawn m).card ∧ (limit ≤ 1 ∨ limit = 2 ∧ ([] : Bytes) ∈ m)

def Draws (d : ConcurrentDict β) (m : GoMap β) (limit : Int) : Prop :=
  if d.count ≤ limit then
    0 ≤ d.count ∧
      if d.count ≤ m.keys.card then limit < m.keys.card → (listed d.count.toNat m.keys.card : Int) = limit
      else ([] : Bytes) ∈ m
  else 0 ≤ limit ∧ (limit = 0 ∨ ∃ key ∈ m, key ≠ [])

theorem Refines.randomDistinctKeys_iff (h : Refines d m removed) (limit : Nat) :
    Yields (fun draw : Iteration β × List (Draw β) × Iteration Bool =>
        d.randomDistinctKeys draw.1 draw.2.1 draw.2.2 limit) (SamplesDistinct m limit) ↔
      DrawsDistinct d m limit := by
  rw [DrawsDistinct]
  split
  · next hle => exact h.randomDistinctKeys_keys_iff hle
  · next hlt => exact h.randomDistinctKeys_draws_iff (by omega)

theorem Refines.randomKeys_iff (h : Refines d m removed) (limit : Int) :
    Yields (fun draw : Iteration β × List (Draw β) => d.randomKeys draw.1 draw.2 limit) (Samples m limit) ↔
      Draws d m limit := by
  rw [Draws]
  split
  · next hle => exact h.randomKeys_keys_iff hle
  · next hlt => exact h.randomKeys_draws_iff (by omega)

end ConcurrentDict

end Traitor.Dicts
