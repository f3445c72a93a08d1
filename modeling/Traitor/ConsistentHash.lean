import Mathlib.Data.List.Sort
import Mathlib.Logic.Function.Basic
import Traitor.Basic
import Traitor.Lib.Crc32
import Traitor.Lib.Strconv

namespace Traitor.ConsistentHash

open Lib.Strconv

/-- A hash that is no point of the ring has the empty string in `hashMap`. -/
structure Map where
  hash : Bytes → Nat
  replicas : Nat
  keys : List Nat
  hashMap : Nat → Bytes

/-- Without a hash function the checksum of the IEEE polynomial is used. -/
def new (replicas : Nat) (fn : Option (Bytes → Nat)) : Map :=
  ⟨fn.getD Lib.Crc32.checksumIEEE, replicas, [], fun _ => []⟩

def Map.isEmpty (m : Map) : Bool := m.keys = []

def addReplica (key : Bytes) (m : Map) (i : Nat) : Map :=
  let hash := m.hash (formatNat i ++ key)
  if m.hashMap hash = [] then
    { m with keys := m.keys ++ [hash], hashMap := Function.update m.hashMap hash key }
  else m

def addKey (m : Map) (key : Bytes) : Map := (List.range m.replicas).foldl (addReplica key) m

def Map.add (m : Map) (keys : List Bytes) : Map :=
  let m := keys.foldl addKey m
  { m with keys := m.keys.insertionSort (· ≤ ·) }

/-- The halving of the range from `i` to `j` in search of the first index with the property. -/
def searchLoop (p : Nat → Bool) : Nat → Nat → Nat → Nat
  | 0, i, _ => i
  | fuel + 1, i, j =>
      if i < j then
        if p ((i + j) / 2) then searchLoop p fuel i ((i + j) / 2)
        else searchLoop p fuel ((i + j) / 2 + 1) j
      else i

def search (n : Nat) (p : Nat → Bool) : Nat := searchLoop p n 0 n

def Map.get (m : Map) (key : Bytes) : Bytes :=
  if m.isEmpty then []
  else
    let hash := m.hash key
    let idx := search m.keys.length fun i => m.keys.getD i 0 ≥ hash
    let idx := if idx = m.keys.length then 0 else idx
    m.hashMap (m.keys.getD idx 0)

theorem searchLoop_le (p : Nat → Bool) (fuel : Nat) {i j : Nat} (h : i ≤ j) :
    searchLoop p fuel i j ≤ j := by
  induction fuel generalizing i j with
  | zero => exact h
  | succ fuel ih =>
      rw [searchLoop]
      split
      · split
        · exact Nat.le_trans (ih (by omega)) (by omega)
        · exact ih (by omega)
      · exact h

theorem search_le (n : Nat) (p : Nat → Bool) : search n p ≤ n := searchLoop_le p n (Nat.zero_le n)

/-- Every point of the ring belongs to one of the given keys, and what belongs to
a key is a point of the ring. -/
structure Owned (ids : List Bytes) (m : Map) : Prop where
  owner : ∀ hash ∈ m.keys, m.hashMap hash ∈ ids
  point : ∀ hash, m.hashMap hash ≠ [] → hash ∈ m.keys

theorem new_owned (replicas : Nat) (fn : Option (Bytes → Nat)) (ids : List Bytes) :
    Owned ids (new replicas fn) := ⟨by simp [new], by simp [new]⟩

variable {ids : List Bytes} {key : Bytes}

theorem addReplica_owned {m : Map} (h : Owned ids m) (hk : key ∈ ids) (i : Nat) :
    Owned ids (addReplica key m i) := by
  rw [addReplica]
  split
  · refine ⟨fun hash hm => ?_, fun hash hne => ?_⟩
    · by_cases he : hash = m.hash (formatNat i ++ key)
      · simp [he, hk]
      · simp only [Function.update_of_ne he]
        exact h.owner hash (by simpa [he] using hm)
    · by_cases he : hash = m.hash (formatNat i ++ key)
      · simp [he]
      · simp only [Function.update_of_ne he] at hne
        exact List.mem_append_left _ (h.point hash hne)
  · exact h

theorem addReplica_keys {m : Map} (h : Owned ids m) (i : Nat) : (addReplica key m i).keys ≠ [] := by
  rw [addReplica]
  split
  · simp
  · rename_i hne
    exact List.ne_nil_of_mem (h.point _ hne)

theorem foldl_addReplica {m : Map} (h : Owned ids m) (hk : key ∈ ids) (is : List Nat) :
    Owned ids (is.foldl (addReplica key) m) ∧
      (m.keys ≠ [] ∨ is ≠ [] → (is.foldl (addReplica key) m).keys ≠ []) ∧
      (is.foldl (addReplica key) m).replicas = m.replicas := by
  induction is generalizing m with
  | nil => exact ⟨h, by simp, rfl⟩
  | cons i is ih =>
      obtain ⟨ho, hne, hr⟩ := ih (addReplica_owned h hk i)
      refine ⟨ho, fun _ => hne (Or.inl (addReplica_keys h i)), hr.trans ?_⟩
      rw [addReplica]
      split <;> rfl

theorem foldl_addKey {m : Map} (h : Owned ids m) (hr : 0 < m.replicas) {keys : List Bytes}
    (hk : ∀ key ∈ keys, key ∈ ids) :
    Owned ids (keys.foldl addKey m) ∧
      (m.keys ≠ [] ∨ keys ≠ [] → (keys.foldl addKey m).keys ≠ []) := by
  induction keys generalizing m with
  | nil => exact ⟨h, by simp⟩
  | cons key keys ih =>
      obtain ⟨ho, hne, hrep⟩ := foldl_addReplica h (hk key List.mem_cons_self) (List.range m.replicas)
      have hpos : List.range m.replicas ≠ [] := by simp; omega
      obtain ⟨ho', hne'⟩ := ih (m := addKey m key) ho (by rw [addKey, hrep]; exact hr)
        (fun k hm => hk k (List.mem_cons_of_mem _ hm))
      exact ⟨ho', fun _ => hne' (Or.inl (hne (Or.inr hpos)))⟩

/-- The owner of every key is one of the keys the ring is built from. -/
theorem get_mem {replicas : Nat} (hr : 0 < replicas) (fn : Option (Bytes → Nat)) (hids : ids ≠ [])
    (key : Bytes) : ((new replicas fn).add ids).get key ∈ ids := by
  obtain ⟨ho, hne⟩ := foldl_addKey (new_owned replicas fn ids) hr (fun k hk => hk)
  have hperm := List.perm_insertionSort (· ≤ ·) (ids.foldl addKey (new replicas fn)).keys
  have hkeys : ((new replicas fn).add ids).keys ≠ [] := by
    intro hnil
    have hsorted : (ids.foldl addKey (new replicas fn)).keys.insertionSort (· ≤ ·) = [] := hnil
    rw [hsorted] at hperm
    exact hne (Or.inr hids) hperm.nil_eq.symm
  have howner : ∀ i, i < ((new replicas fn).add ids).keys.length →
      ((new replicas fn).add ids).hashMap (((new replicas fn).add ids).keys.getD i 0) ∈ ids := by
    intro i hi
    refine ho.owner _ (hperm.mem_iff.mp ?_)
    rw [List.getD_eq_getElem?_getD, List.getElem?_eq_getElem hi]
    exact List.getElem_mem hi
  have hpos := List.length_pos_iff.mpr hkeys
  rw [Map.get, Map.isEmpty, if_neg (by simpa using hkeys)]
  apply howner
  split
  · exact hpos
  · rename_i hlast
    exact Nat.lt_of_le_of_ne (search_le _ _) hlast

end Traitor.ConsistentHash
