import Mathlib.Data.List.GetD
import Traitor.ConsistentHash
import Traitor.Lib.Successor

namespace Traitor.ConsistentHash

open Lib.Strconv Lib.Successor

/-- What the halving finds is the border between the indices without the property and those
with it. -/
theorem searchLoop_border {p : Nat → Bool} {n : Nat}
    (hmono : ∀ i j, i ≤ j → j < n → p i = true → p j = true) (fuel : Nat) {i j : Nat} (hij : i ≤ j)
    (hjn : j ≤ n) (hfuel : j ≤ i + fuel) (hbelow : ∀ k < i, p k = false)
    (habove : ∀ k, j ≤ k → k < n → p k = true) :
    (∀ k < searchLoop p fuel i j, p k = false) ∧
      ∀ k, searchLoop p fuel i j ≤ k → k < n → p k = true := by
  induction fuel generalizing i j with
  | zero =>
      rw [searchLoop]
      exact ⟨hbelow, fun k hk => habove k (by omega)⟩
  | succ fuel ih =>
      rw [searchLoop]
      split
      · split
        · next hp =>
            exact ih (by omega) (by omega) (by omega) hbelow fun k hk hkn => hmono _ k hk hkn hp
        · next hp =>
            refine ih (by omega) hjn (by omega) (fun k hk => ?_) habove
            by_contra hpk
            exact hp (hmono k _ (by omega) (by omega) (by simpa using hpk))
      · exact ⟨hbelow, fun k hk => habove k (by omega)⟩

theorem search_border {p : Nat → Bool} {n : Nat}
    (hmono : ∀ i j, i ≤ j → j < n → p i = true → p j = true) :
    (∀ k < search n p, p k = false) ∧ ∀ k, search n p ≤ k → k < n → p k = true :=
  searchLoop_border hmono n (Nat.zero_le _) le_rfl (by omega) (by simp) (by omega)

structure Indexed (m : Map) : Prop where
  nodup : m.keys.Nodup
  mem_iff : ∀ p, p ∈ m.keys ↔ m.hashMap p ≠ []

variable {m : Map} {name : Bytes}

theorem new_indexed (replicas : Nat) (fn : Option (Bytes → Nat)) : Indexed (new replicas fn) :=
  ⟨List.nodup_nil, by simp [new]⟩

def points (m : Map) (name : Bytes) : List Nat :=
  (List.range m.replicas).map fun i => m.hash (formatNat i ++ name)

/-- What adding leaves as it is, and what the free points among the given ones get. -/
structure Adds (m m' : Map) (name : Bytes) (places : List Nat) : Prop where
  indexed : Indexed m'
  hash : m'.hash = m.hash
  replicas : m'.replicas = m.replicas
  hashMap : ∀ p, m'.hashMap p = if m.hashMap p = [] ∧ p ∈ places then name else m.hashMap p

theorem addReplica_adds (h : Indexed m) (hname : name ≠ []) (i : Nat) :
    Adds m (addReplica name m i) name [m.hash (formatNat i ++ name)] := by
  rw [addReplica]
  split
  · next hfree =>
      have hnew : m.hash (formatNat i ++ name) ∉ m.keys := fun hmem => (h.mem_iff _).mp hmem hfree
      refine ⟨⟨List.nodup_append.mpr ⟨h.nodup, List.nodup_singleton _, ?_⟩, fun p => ?_⟩, rfl, rfl,
        fun p => ?_⟩
      · intro a ha b hb hab
        exact hnew (List.mem_singleton.mp hb ▸ hab ▸ ha)
      · by_cases hp : p = m.hash (formatNat i ++ name)
        · simp [hp, hname]
        · simp [hp, h.mem_iff]
      · by_cases hp : p = m.hash (formatNat i ++ name)
        · simp [hp, hfree]
        · simp [hp]
  · next htaken =>
      refine ⟨h, rfl, rfl, fun p => ?_⟩
      rw [if_neg]
      rintro ⟨hfree, hp⟩
      exact htaken (List.mem_singleton.mp hp ▸ hfree)

theorem foldl_addReplica_adds (h : Indexed m) (hname : name ≠ []) (is : List Nat) :
    Adds m (is.foldl (addReplica name) m) name
      (is.map fun i => m.hash (formatNat i ++ name)) := by
  induction is generalizing m with
  | nil => exact ⟨h, rfl, rfl, by simp⟩
  | cons i is ih =>
      have hstep := addReplica_adds h hname i
      have hrest := ih hstep.indexed
      refine ⟨hrest.indexed, hrest.hash.trans hstep.hash, hrest.replicas.trans hstep.replicas,
        fun p => ?_⟩
      rw [List.foldl_cons, hrest.hashMap, hstep.hashMap, hstep.hash, List.map_cons]
      by_cases hp : m.hashMap p = []
      · by_cases hi : p = m.hash (formatNat i ++ name)
        · have hfree : m.hashMap (m.hash (formatNat i ++ name)) = [] := hi ▸ hp
          simp [hi, hfree, hname]
        · simp [hp, hi]
      · simp [hp]

theorem addKey_adds (h : Indexed m) (hname : name ≠ []) :
    Adds m (addKey m name) name (points m name) := foldl_addReplica_adds h hname _

def firstOwner (m : Map) (names : List Bytes) (p : Nat) : Bytes :=
  (names.find? fun name => p ∈ points m name).getD []

theorem foldl_addKey_spec (h : Indexed m) {names : List Bytes} (hnames : ∀ name ∈ names, name ≠ []) :
    Indexed (names.foldl addKey m) ∧ (names.foldl addKey m).hash = m.hash ∧
      (names.foldl addKey m).replicas = m.replicas ∧
      ∀ p, (names.foldl addKey m).hashMap p =
        if m.hashMap p = [] then firstOwner m names p else m.hashMap p := by
  induction names generalizing m with
  | nil =>
      refine ⟨h, rfl, rfl, fun p => ?_⟩
      by_cases hp : m.hashMap p = []
      · simp [hp, firstOwner]
      · simp [hp]
  | cons name names ih =>
      have hname := hnames name List.mem_cons_self
      have hadd := addKey_adds h hname
      obtain ⟨hindexed, hhash, hreplicas, hmap⟩ :=
        ih hadd.indexed fun name' hmem => hnames name' (List.mem_cons_of_mem _ hmem)
      have hpoints : points (addKey m name) = points m := by
        funext name'
        rw [points, points, hadd.hash, hadd.replicas]
      refine ⟨hindexed, hhash.trans hadd.hash, hreplicas.trans hadd.replicas, fun p => ?_⟩
      rw [List.foldl_cons, hmap, hadd.hashMap, firstOwner, firstOwner, hpoints, List.find?_cons]
      by_cases hp : m.hashMap p = []
      · by_cases hmem : p ∈ points m name
        · simp [hp, hmem, hname]
        · simp [hp, hmem]
      · simp [hp]

structure Sorted (m : Map) : Prop extends Indexed m where
  sorted : m.keys.Pairwise (· < ·)

theorem new_sorted (replicas : Nat) (fn : Option (Bytes → Nat)) : Sorted (new replicas fn) :=
  ⟨new_indexed replicas fn, List.Pairwise.nil⟩

theorem add_spec (h : Indexed m) {names : List Bytes} (hnames : ∀ name ∈ names, name ≠ []) :
    Sorted (m.add names) ∧ (m.add names).hash = m.hash ∧ (m.add names).replicas = m.replicas ∧
      ∀ p, (m.add names).hashMap p =
        if m.hashMap p = [] then firstOwner m names p else m.hashMap p := by
  obtain ⟨⟨hnodup, hmem⟩, hhash, hreplicas, hmap⟩ := foldl_addKey_spec h hnames
  have hperm := List.perm_insertionSort (· ≤ ·) (names.foldl addKey m).keys
  have hsorted := List.pairwise_insertionSort (· ≤ ·) (names.foldl addKey m).keys
  have hnodup' := hperm.nodup_iff.mpr hnodup
  refine ⟨⟨⟨hnodup', fun p => (hperm.mem_iff).trans (hmem p)⟩, ?_⟩, hhash, hreplicas, hmap⟩
  exact (hsorted.and hnodup').imp fun hab => lt_of_le_of_ne hab.1 hab.2

theorem get_of_isEmpty (h : m.keys = []) (key : Bytes) : m.get key = [] := by
  rw [Map.get, Map.isEmpty, if_pos (decide_eq_true h)]

/-- The owner of the first point from the hash of the key on. -/
theorem get_spec (h : Sorted m) (hne : m.keys ≠ []) (key : Bytes) :
    ∃ p, IsSuccessor {q | q ∈ m.keys} (m.hash key) p ∧ m.get key = m.hashMap p := by
  have hlt {i j : Nat} (hij : i < j) (hj : j < m.keys.length) : m.keys.getD i 0 < m.keys.getD j 0 := by
    rw [List.getD_eq_getElem _ _ hj, List.getD_eq_getElem _ _ (hij.trans hj)]
    exact List.pairwise_iff_getElem.mp h.sorted i j _ hj hij
  have hle {i j : Nat} (hij : i ≤ j) (hj : j < m.keys.length) : m.keys.getD i 0 ≤ m.keys.getD j 0 :=
    (Nat.lt_or_eq_of_le hij).elim (fun hij => (hlt hij hj).le) fun hij => hij ▸ le_rfl
  have hmem {i : Nat} (hi : i < m.keys.length) : m.keys.getD i 0 ∈ m.keys := by
    rw [List.getD_eq_getElem _ _ hi]
    exact List.getElem_mem hi
  have hindex {q : Nat} (hq : q ∈ m.keys) : ∃ i < m.keys.length, q = m.keys.getD i 0 := by
    obtain ⟨i, hi, rfl⟩ := List.mem_iff_getElem.mp hq
    exact ⟨i, hi, (List.getD_eq_getElem _ _ hi).symm⟩
  let found (i : Nat) : Bool := decide (m.keys.getD i 0 ≥ m.hash key)
  have hget : m.get key = m.hashMap (m.keys.getD
      (if search m.keys.length found = m.keys.length then 0 else search m.keys.length found) 0) := by
    rw [Map.get, Map.isEmpty, if_neg (by simpa using hne)]
  obtain ⟨hbelow, habove⟩ := search_border (p := found) (n := m.keys.length) fun i j hij hj hi =>
    decide_eq_true (le_trans (of_decide_eq_true hi) (hle hij hj))
  have hbound := search_le m.keys.length found
  have hpos := List.length_pos_iff.mpr hne
  rw [hget]
  generalize search m.keys.length found = idx at hbelow habove hbound
  by_cases hlast : idx = m.keys.length
  · rw [if_pos hlast]
    refine ⟨m.keys.getD 0 0, .inr ⟨fun q hq => ?_, hmem hpos, fun q hq => ?_⟩, rfl⟩
    · obtain ⟨i, hi, rfl⟩ := hindex hq
      exact not_le.mp (of_decide_eq_false (hbelow i (hlast ▸ hi)))
    · obtain ⟨i, hi, rfl⟩ := hindex hq
      exact hle (Nat.zero_le i) hi
  · rw [if_neg hlast]
    have hidx := lt_of_le_of_ne hbound hlast
    refine ⟨m.keys.getD idx 0, .inl ⟨⟨hmem hidx, of_decide_eq_true (habove idx le_rfl hidx)⟩, ?_⟩, rfl⟩
    rintro q ⟨hq, hhash⟩
    obtain ⟨i, hi, rfl⟩ := hindex hq
    by_contra hnot
    have hbefore : i < idx := by
      by_contra hge
      exact hnot (hle (not_lt.mp hge) hi)
    exact of_decide_eq_false (hbelow i hbefore) hhash

def build (replicas : Nat) (fn : Option (Bytes → Nat)) (calls : List (List Bytes)) : Map :=
  calls.foldl Map.add (new replicas fn)

theorem foldl_add_sorted {calls : List (List Bytes)} (h : Sorted m)
    (hcalls : ∀ names ∈ calls, ∀ name ∈ names, name ≠ []) :
    Sorted (calls.foldl Map.add m) ∧ (calls.foldl Map.add m).hash = m.hash := by
  induction calls generalizing m with
  | nil => exact ⟨h, rfl⟩
  | cons names calls ih =>
      obtain ⟨hsorted, hhash, -⟩ := add_spec h.toIndexed (hcalls names List.mem_cons_self)
      obtain ⟨hrest, hrest'⟩ := ih hsorted fun names' hmem => hcalls names' (List.mem_cons_of_mem _ hmem)
      exact ⟨hrest, hrest'.trans hhash⟩

/-- One name more takes keys over and moves none between the others. -/
theorem get_add (h : Sorted m) (hname : name ≠ []) (key : Bytes) :
    (m.add [name]).get key = m.get key ∨ (m.add [name]).get key = name := by
  have hnames : ∀ name' ∈ [name], name' ≠ [] := by simpa using hname
  obtain ⟨hsorted, hhash, -, hmap⟩ := add_spec h.toIndexed hnames
  have howner {p : Nat} (hp : m.hashMap p = []) (hne : (m.add [name]).hashMap p ≠ []) :
      (m.add [name]).hashMap p = name := by
    rw [hmap, if_pos hp, firstOwner, List.find?_singleton] at hne ⊢
    split at hne
    · next hmem => rw [if_pos hmem, Option.getD_some]
    · exact absurd rfl hne
  by_cases hnone : (m.add [name]).keys = []
  · left
    have hempty : m.keys = [] := by
      rw [List.eq_nil_iff_forall_not_mem] at hnone ⊢
      intro p hp
      refine hnone p ((hsorted.mem_iff p).mpr ?_)
      rw [hmap, if_neg ((h.mem_iff p).mp hp)]
      exact (h.mem_iff p).mp hp
    rw [get_of_isEmpty hnone, get_of_isEmpty hempty]
  · obtain ⟨q, hq, hgetq⟩ := get_spec hsorted hnone key
    by_cases hold : q ∈ m.keys
    · left
      obtain ⟨p, hp, hgetp⟩ := get_spec h (List.ne_nil_of_mem hold) key
      have hsub : {q | q ∈ m.keys} ⊆ {q | q ∈ (m.add [name]).keys} := by
        intro r hr
        apply (hsorted.mem_iff r).mpr
        rw [hmap, if_neg ((h.mem_iff r).mp hr)]
        exact (h.mem_iff r).mp hr
      rw [hhash] at hq
      obtain rfl := hp.grow hsub hq hold
      rw [hgetq, hgetp, hmap, if_neg ((h.mem_iff q).mp hold)]
    · right
      rw [hgetq]
      refine howner ?_ ((hsorted.mem_iff q).mp hq.mem)
      by_contra hne
      exact hold ((h.mem_iff q).mpr hne)

/-- The ring of any calls is sorted and indexed by its owners, a key belongs to the owner of
its successor, and one name more takes keys over and moves none between the others. -/
theorem build_minimal_disruption (replicas : Nat) (fn : Option (Bytes → Nat))
    (calls : List (List Bytes)) (hcalls : ∀ names ∈ calls, ∀ name ∈ names, name ≠ []) :
    (build replicas fn calls).keys.Pairwise (· < ·) ∧
      (∀ p, p ∈ (build replicas fn calls).keys ↔ (build replicas fn calls).hashMap p ≠ []) ∧
      ((build replicas fn calls).keys ≠ [] → ∀ key, ∃ p,
        IsSuccessor {q | q ∈ (build replicas fn calls).keys}
          (fn.getD Lib.Crc32.checksumIEEE key) p ∧
        (build replicas fn calls).get key = (build replicas fn calls).hashMap p) ∧
      ∀ name, name ≠ [] → ∀ key,
        ((build replicas fn calls).add [name]).get key = (build replicas fn calls).get key ∨
          ((build replicas fn calls).add [name]).get key = name := by
  obtain ⟨hsorted, hhash⟩ := foldl_add_sorted (new_sorted replicas fn) hcalls
  refine ⟨hsorted.sorted, hsorted.mem_iff, fun hne key => ?_, fun name hname key =>
    get_add hsorted hname key⟩
  obtain ⟨p, hp, hget⟩ := get_spec hsorted hne key
  have hkey : (build replicas fn calls).hash = fn.getD Lib.Crc32.checksumIEEE := hhash
  exact ⟨p, hkey ▸ hp, hget⟩

theorem build_minimal_disruption_two :
    let m := build 2 none [[bytes "a"], [bytes "b"]]
    m.keys.Pairwise (· < ·) ∧ ((m.add [bytes "c"]).get (bytes "job") = m.get (bytes "job") ∨
      (m.add [bytes "c"]).get (bytes "job") = bytes "c") :=
  ⟨(build_minimal_disruption 2 none [[bytes "a"], [bytes "b"]] (by decide)).1,
    (build_minimal_disruption 2 none [[bytes "a"], [bytes "b"]] (by decide)).2.2.2 (bytes "c")
      (by decide) (bytes "job")⟩

/-- The entries in another order, some of them more than once. -/
def Relisted (names names' : List Bytes) : Prop :=
  ∃ again, again ⊆ names ∧ names'.Perm (names ++ again)

theorem Relisted.mem_iff {names names' : List Bytes} (h : Relisted names names') (name : Bytes) :
    name ∈ names' ↔ name ∈ names := by
  obtain ⟨again, hagain, hperm⟩ := h
  rw [hperm.mem_iff, List.mem_append]
  exact or_iff_left_of_imp fun hmem => hagain hmem

theorem Relisted.of_mem {names : List Bytes} (h : name ∈ names) :
    Relisted names (name :: names.erase name) :=
  ⟨[], List.nil_subset _, by rw [List.append_nil]; exact (List.perm_cons_erase h).symm⟩

def Apart (m : Map) (names : List Bytes) : Prop :=
  ∀ a ∈ names, ∀ b ∈ names, ∀ p ∈ points m a, p ∈ points m b → a = b

theorem firstOwner_eq_nil_iff {names : List Bytes} (hnames : ∀ name ∈ names, name ≠ []) (p : Nat) :
    firstOwner m names p = [] ↔ ∀ name ∈ names, p ∉ points m name := by
  rw [firstOwner]
  cases hfind : names.find? fun name => p ∈ points m name with
  | none => simpa using hfind
  | some name =>
      have hmem := List.mem_of_find?_eq_some hfind
      have hp : p ∈ points m name := by simpa using List.find?_some hfind
      exact iff_of_false (hnames name hmem) fun h => h name hmem hp

/-- The owner of a point is the one name that has it. -/
theorem firstOwner_eq {names : List Bytes} (hapart : Apart m names) (hmem : name ∈ names)
    {p : Nat} (hp : p ∈ points m name) : firstOwner m names p = name := by
  rw [firstOwner]
  cases hfind : names.find? fun name => p ∈ points m name with
  | none =>
      have hnone := List.find?_eq_none.mp hfind name hmem
      simp [hp] at hnone
  | some other =>
      have hother : p ∈ points m other := by simpa using List.find?_some hfind
      exact hapart other (List.mem_of_find?_eq_some hfind) name hmem p hother hp

/-- Rings of the same size and hash that agree on the owners agree on every key. -/
theorem get_congr {m' : Map} (h : Sorted m) (h' : Sorted m') (hhash : m.hash = m'.hash)
    (hmap : m.hashMap = m'.hashMap) (key : Bytes) : m.get key = m'.get key := by
  have hkeys (p : Nat) : p ∈ m.keys ↔ p ∈ m'.keys := by rw [h.mem_iff, h'.mem_iff, hmap]
  by_cases hempty : m.keys = []
  · have hempty' : m'.keys = [] := by
      rw [List.eq_nil_iff_forall_not_mem] at hempty ⊢
      exact fun p hp => hempty p ((hkeys p).mpr hp)
    rw [get_of_isEmpty hempty, get_of_isEmpty hempty']
  · have hempty' : m'.keys ≠ [] := by
      obtain ⟨p, hp⟩ := List.exists_mem_of_ne_nil _ hempty
      exact List.ne_nil_of_mem ((hkeys p).mp hp)
    obtain ⟨p, hp, hget⟩ := get_spec h hempty key
    obtain ⟨p', hp', hget'⟩ := get_spec h' hempty' key
    have hset : {q | q ∈ m.keys} = {q | q ∈ m'.keys} := Set.ext hkeys
    rw [hset, hhash] at hp
    rw [hget, hget', hmap, hp'.unique hp]

theorem new_add_hashMap {replicas : Nat} {fn : Option (Bytes → Nat)} {names : List Bytes}
    (hnames : ∀ name ∈ names, name ≠ []) (p : Nat) :
    ((new replicas fn).add names).hashMap p = firstOwner (new replicas fn) names p :=
  ((add_spec (new_indexed replicas fn) hnames).2.2.2 p).trans (if_pos rfl)

/-- A key whose hash is a point of the name that is added first belongs to this name. -/
theorem get_add_first {replicas : Nat} {fn : Option (Bytes → Nat)} {names : List Bytes}
    (hnames : ∀ name' ∈ name :: names, name' ≠ []) {key : Bytes}
    (hp : (new replicas fn).hash key ∈ points (new replicas fn) name) :
    ((new replicas fn).add (name :: names)).get key = name := by
  obtain ⟨hsorted, hhash, -⟩ := add_spec (new_indexed replicas fn) hnames
  have howner : ((new replicas fn).add (name :: names)).hashMap ((new replicas fn).hash key) = name := by
    rw [new_add_hashMap hnames, firstOwner, List.find?_cons_of_pos (by simpa using hp), Option.getD_some]
  have hpoint : (new replicas fn).hash key ∈ ((new replicas fn).add (name :: names)).keys := by
    rw [hsorted.mem_iff, howner]
    exact hnames name List.mem_cons_self
  obtain ⟨q, hq, hget⟩ := get_spec hsorted (List.ne_nil_of_mem hpoint) key
  rw [hhash] at hq
  have hself : IsSuccessor {q | q ∈ ((new replicas fn).add (name :: names)).keys}
      ((new replicas fn).hash key) ((new replicas fn).hash key) := isSuccessor_self hpoint
  rw [hget, hself.unique hq, howner]

/-- The owners do not depend on the listing if and only if no two of the names have a replica
at the same point. -/
theorem add_order_independent_iff (replicas : Nat) (fn : Option (Bytes → Nat)) (names : List Bytes)
    (hnames : ∀ name ∈ names, name ≠ []) :
    (∀ names', Relisted names names' → ∀ key,
      ((new replicas fn).add names').get key = ((new replicas fn).add names).get key) ↔
      Apart (new replicas fn) names := by
  constructor
  · intro hsame a ha b hb p hpa hpb
    -- the text that is hashed for a replica is a key, too
    obtain ⟨i, -, hkey⟩ := List.mem_map.mp hpa
    have hget {name : Bytes} (hmem : name ∈ names) (hp : p ∈ points (new replicas fn) name) :
        ((new replicas fn).add (name :: names.erase name)).get (formatNat i ++ a) = name := by
      refine get_add_first (fun name' hmem' => ?_) (hkey ▸ hp)
      exact hnames name' (((Relisted.of_mem hmem).mem_iff name').mp hmem')
    rw [← hget ha hpa, ← hget hb hpb, hsame _ (.of_mem ha), hsame _ (.of_mem hb)]
  · intro hapart names' hrelisted key
    have hnames' : ∀ name ∈ names', name ≠ [] := fun name hmem =>
      hnames name ((hrelisted.mem_iff name).mp hmem)
    have hapart' : Apart (new replicas fn) names' := fun a ha b hb =>
      hapart a ((hrelisted.mem_iff a).mp ha) b ((hrelisted.mem_iff b).mp hb)
    obtain ⟨hsorted, hhash, -⟩ := add_spec (new_indexed replicas fn) hnames
    obtain ⟨hsorted', hhash', -⟩ := add_spec (new_indexed replicas fn) hnames'
    refine get_congr hsorted' hsorted (hhash'.trans hhash.symm) (funext fun p => ?_) key
    rw [new_add_hashMap hnames, new_add_hashMap hnames']
    by_cases hp : ∃ name ∈ names, p ∈ points (new replicas fn) name
    · obtain ⟨name, hmem, hp⟩ := hp
      rw [firstOwner_eq hapart hmem hp, firstOwner_eq hapart' ((hrelisted.mem_iff name).mpr hmem) hp]
    · have hfree : ∀ name ∈ names, p ∉ points (new replicas fn) name := fun name hmem hp' =>
        hp ⟨name, hmem, hp'⟩
      rw [(firstOwner_eq_nil_iff hnames p).mpr hfree, (firstOwner_eq_nil_iff hnames' p).mpr
        fun name hmem => hfree name ((hrelisted.mem_iff name).mp hmem)]

/-- Two names, listed in either order. -/
theorem add_order_independent_iff_two :
    ((new 2 none).add [bytes "b", bytes "a", bytes "b"]).get (bytes "k") =
      ((new 2 none).add [bytes "a", bytes "b"]).get (bytes "k") := by
  have hdisjoint : ∀ p ∈ points (new 2 none) (bytes "a"), p ∉ points (new 2 none) (bytes "b") := by
    decide +kernel
  refine (add_order_independent_iff 2 none [bytes "a", bytes "b"] (by decide)).mpr ?_
    [bytes "b", bytes "a", bytes "b"] ⟨[bytes "b"], by decide, List.Perm.swap _ _ _⟩ (bytes "k")
  intro a ha b hb p hpa hpb
  simp only [List.mem_cons, List.not_mem_nil, or_false] at ha hb
  rcases ha with rfl | rfl <;> rcases hb with rfl | rfl
  · rfl
  · exact absurd hpb (hdisjoint p hpa)
  · exact absurd hpa (hdisjoint p hpb)
  · rfl

/-- The checksums of the fifth replica of the first name and of the 29th of the second. -/
theorem add_order_matters :
    ¬ ∀ (replicas : Nat) (fn : Option (Bytes → Nat)) (names : List Bytes),
      (∀ name ∈ names, name ≠ []) → ∀ names', Relisted names names' → ∀ key,
        ((new replicas fn).add names').get key = ((new replicas fn).add names).get key := by
  intro h
  let a := bytes "traitor_defaultNode_ff7a0971-5cb3-4858-9b82-903f214f85ff"
  let b := bytes "traitor_defaultNode_bca8945a-8a7b-459d-9d6e-4ae6fd004353"
  have hnames : ∀ name ∈ [a, b], name ≠ [] := by decide
  have hcrc : Lib.Crc32.checksumIEEE (formatNat 4 ++ a) = Lib.Crc32.checksumIEEE (formatNat 28 ++ b) := by
    decide +kernel
  have hfirst : ((new 50 none).add [a, b]).get (formatNat 4 ++ a) = a :=
    get_add_first hnames (List.mem_map.mpr ⟨4, by simp [new], rfl⟩)
  have hsecond : ((new 50 none).add [b, a]).get (formatNat 4 ++ a) = b :=
    get_add_first (by decide) (List.mem_map.mpr ⟨28, by simp [new], hcrc.symm⟩)
  have hsame := h 50 none [a, b] hnames [b, a] ⟨[], by simp, List.Perm.swap a b []⟩ (formatNat 4 ++ a)
  rw [hfirst, hsecond] at hsame
  exact absurd hsame (by decide)

end Traitor.ConsistentHash
