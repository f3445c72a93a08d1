import Mathlib.Data.Finset.Sort
import Mathlib.Data.Fintype.Basic
import Traitor.Lib.LockOrder
import Traitor.Transaction

namespace Traitor.Lock

open Lib.LockOrder Lib.Strconv Protocol

structure Locks where
  size : Nat
  power_of_two : ∃ k, size = 2 ^ k

namespace Locks

variable (locks : Locks)

theorem spread_lt (hashCode : UInt32) : ((UInt32.ofNat locks.size - 1) &&& hashCode).toNat < locks.size := by
  obtain ⟨k, hk⟩ := locks.power_of_two
  have hmask : (UInt32.ofNat locks.size - 1).toNat < locks.size := by
    rw [UInt32.toNat_sub, UInt32.toNat_ofNat', UInt32.toNat_one]
    by_cases hlt : k < 32
    · have hsize : locks.size < 2 ^ 32 := hk ▸ Nat.pow_lt_pow_right (by omega) hlt
      have hpos : 0 < locks.size := hk ▸ Nat.two_pow_pos k
      omega
    · have hzero : locks.size % 2 ^ 32 = 0 := by
        rw [hk]
        exact Nat.mod_eq_zero_of_dvd (Nat.pow_dvd_pow 2 (by omega))
      have hsize : 2 ^ 32 ≤ locks.size := hk ▸ Nat.pow_le_pow_right (by omega) (by omega)
      omega
  rw [UInt32.toNat_and]
  exact Nat.lt_of_le_of_lt Nat.and_le_left hmask

def spread (hashCode : UInt32) : Fin locks.size :=
  ⟨((UInt32.ofNat locks.size - 1) &&& hashCode).toNat, locks.spread_lt hashCode⟩

def index (key : Bytes) : Fin locks.size := locks.spread (Transaction.hash key)

def toLockIndices (keys : List Bytes) (reverse : Bool) : List (Fin locks.size) :=
  let indexMap := (keys.map locks.index).toFinset
  if reverse then indexMap.sort (· ≥ ·) else indexMap.sort (· ≤ ·)

def mode (writeKeys : List Bytes) (index : Fin locks.size) : Mode :=
  if index ∈ writeKeys.map locks.index then .write else .read

def rwLocks (writeKeys readKeys : List Bytes) : List (Access (Fin locks.size)) :=
  (locks.toLockIndices (writeKeys ++ readKeys) false).map fun index =>
    (index, locks.mode writeKeys index)

def rwUnLocks (writeKeys readKeys : List Bytes) : List (Access (Fin locks.size)) :=
  (locks.toLockIndices (writeKeys ++ readKeys) true).map fun index =>
    (index, locks.mode writeKeys index)

theorem mem_toLockIndices {keys : List Bytes} {reverse : Bool} {index : Fin locks.size} :
    index ∈ locks.toLockIndices keys reverse ↔ ∃ key ∈ keys, locks.index key = index := by
  rw [toLockIndices]
  cases reverse with
  | false => simp
  | true => simp

theorem rwLocks_ascending (writeKeys readKeys : List Bytes) :
    (locks.rwLocks writeKeys readKeys).Pairwise fun a b => a.1 < b.1 := by
  rw [rwLocks, List.pairwise_map]
  exact (Finset.sortedLT_sort ((writeKeys ++ readKeys).map locks.index).toFinset).pairwise

theorem rwUnLocks_perm (writeKeys readKeys : List Bytes) :
    (locks.rwUnLocks writeKeys readKeys).Perm (locks.rwLocks writeKeys readKeys) := by
  apply List.Perm.map _
  exact (((writeKeys ++ readKeys).map locks.index).toFinset.sort_perm_toList (· ≥ ·)).trans
    (((writeKeys ++ readKeys).map locks.index).toFinset.sort_perm_toList (· ≤ ·)).symm

theorem rwLocks_single (key : Bytes) : locks.rwLocks [key] [] = [(locks.index key, .write)] := by
  simp [rwLocks, toLockIndices, mode]

theorem rwLocks_single_read (key : Bytes) : locks.rwLocks [] [key] = [(locks.index key, .read)] := by
  simp [rwLocks, toLockIndices, mode]

/-- Requests are the keys to write and the keys to read. -/
def discipline : Discipline (Fin locks.size) (List Bytes × List Bytes) where
  acquire r := locks.rwLocks r.1 r.2
  release r := locks.rwUnLocks r.1 r.2
  ascending r := locks.rwLocks_ascending r.1 r.2
  perm r := locks.rwUnLocks_perm r.1 r.2

end Locks

/-- A database takes its locks in the table of this size. -/
theorem index_eq (key : Bytes) : Transaction.toLockIndices [key] =
    [UInt32.ofNat ((⟨1024, 10, rfl⟩ : Locks).index key).val] := by
  have hindex : ((⟨1024, 10, rfl⟩ : Locks).index key).val =
      (Transaction.spread (Transaction.hash key)).toNat := rfl
  rw [hindex, UInt32.ofNat_toNat]
  rfl

section

variable {ι : Type} [DecidableEq ι] {locks : Locks} {c c' : ι}

structure Safe (locks : Locks) (s : System ι (Fin locks.size) (List Bytes × List Bytes)) : Prop where
  exclusive : ∀ c c' key, c ≠ c' → s.Holds c (locks.index key, .write) →
    ∀ mode, ¬ s.Owns c' (locks.index key, mode)
  writes : ∀ c writeKeys readKeys, s.stages c = .holding (writeKeys, readKeys) →
    ∀ key ∈ writeKeys, s.Holds c (locks.index key, .write)
  reads : ∀ c writeKeys readKeys, s.stages c = .holding (writeKeys, readKeys) →
    ∀ key ∈ readKeys, ∃ mode, s.Holds c (locks.index key, mode)
  acquired : ∀ c writeKeys readKeys, s.stages c = .holding (writeKeys, readKeys) →
    ∀ a, s.Holds c a ↔ a ∈ locks.rwLocks writeKeys readKeys
  released : ∀ c writeKeys readKeys todo, s.stages c = .unlocking (writeKeys, readKeys) todo →
    ∃ done, (done ++ todo).Perm (locks.rwLocks writeKeys readKeys) ∧ ∀ a, s.Holds c a ↔ a ∈ todo
  idle : ∀ c, s.stages c = .idle → ∀ a, ¬ s.Owns c a
  progress : (∃ c, s.stages c ≠ .idle) → CanStep locks.discipline s

theorem mem_rwLocks_of_write {writeKeys : List Bytes} (readKeys : List Bytes) {key : Bytes}
    (h : key ∈ writeKeys) : (locks.index key, Mode.write) ∈ locks.rwLocks writeKeys readKeys := by
  refine List.mem_map.mpr ⟨locks.index key, ?_, ?_⟩
  · exact locks.mem_toLockIndices.mpr ⟨key, List.mem_append_left _ h, rfl⟩
  · rw [Locks.mode, if_pos (List.mem_map_of_mem h)]

theorem mem_rwLocks_of_read (writeKeys : List Bytes) {readKeys : List Bytes} {key : Bytes}
    (h : key ∈ readKeys) : ∃ mode, (locks.index key, mode) ∈ locks.rwLocks writeKeys readKeys :=
  ⟨_, List.mem_map.mpr ⟨locks.index key,
    locks.mem_toLockIndices.mpr ⟨key, List.mem_append_right _ h, rfl⟩, rfl⟩⟩

omit [DecidableEq ι] in
/-- Out of `Lock` and `RLock`, what a client owns it holds. -/
theorem holds_iff {s : System ι (Fin locks.size) (List Bytes × List Bytes)}
    {stage : Stage (Fin locks.size) (List Bytes × List Bytes)} (hs : s.stages c = stage)
    (hstage : ∀ r i todo, stage ≠ .draining r i todo) {l : List (Access (Fin locks.size))}
    (h : ∀ a, s.Owns c a ↔ a ∈ l) (a : Access (Fin locks.size)) : s.Holds c a ↔ a ∈ l :=
  ⟨fun ha => (h a).mp ha.1, fun ha => ⟨(h a).mpr ha, fun _ => System.not_drains hs hstage a.1⟩⟩

/-- In every state that any number of clients can come to, the locks exclude, are unlocked
as they were locked, and no deadlock is reached. -/
theorem safe_of_reachable (locks : Locks) (s : System ι (Fin locks.size) (List Bytes × List Bytes))
    (h : Reachable locks.discipline s) : Safe locks s := by
  have hinv := inv_of_reachable h
  have hholding {c : ι} {r : List Bytes × List Bytes} (hs : s.stages c = .holding r)
      (a : Access (Fin locks.size)) : s.Holds c a ↔ a ∈ locks.rwLocks r.1 r.2 := by
    have hf := hinv.fits c
    rw [Fits, hs] at hf
    exact holds_iff hs (by simp) hf.1 a
  refine ⟨?_, ?_, ?_, ?_, ?_, ?_, hinv.progress⟩
  · intro c c' key hne hwrite mode
    exact hinv.exclusive hne hwrite mode
  · intro c writeKeys readKeys hs key hkey
    exact (hholding hs _).mpr (mem_rwLocks_of_write readKeys hkey)
  · intro c writeKeys readKeys hs key hkey
    obtain ⟨mode, hmem⟩ := mem_rwLocks_of_read writeKeys hkey
    exact ⟨mode, (hholding hs _).mpr hmem⟩
  · intro c writeKeys readKeys hs a
    exact hholding hs a
  · intro c writeKeys readKeys todo hs
    have hf := hinv.fits c
    rw [Fits, hs] at hf
    obtain ⟨done, hdone, hhas⟩ := hf
    refine ⟨done, ?_, holds_iff hs (by simp) hhas.1⟩
    rw [← hdone]
    exact locks.rwUnLocks_perm writeKeys readKeys
  · intro c hs a ha
    have hf := hinv.fits c
    rw [Fits, hs] at hf
    exact List.not_mem_nil ((hf.1 a).mp ha)

end

/-- One client writes a key, and another one waits to read it. -/
def contended (locks : Locks) (key : Bytes) : System Bool (Fin locks.size) (List Bytes × List Bytes) where
  slots := Function.update (fun _ => .free) (locks.index key) ⟨∅, some true, {false}⟩
  stages := Function.update (Function.update (fun _ => .idle) true (.holding ([key], []))) false
    (.parked ([], [key]) (locks.index key) [])

theorem reachable_contended (locks : Locks) (key : Bytes) :
    Reachable locks.discipline (contended locks key) := by
  let i := locks.index key
  let free : Fin locks.size → RWMutex Bool := fun _ => .free
  let held : Fin locks.size → RWMutex Bool := Function.update free i ⟨∅, some true, ∅⟩
  let idle : Bool → Stage (Fin locks.size) (List Bytes × List Bytes) := fun _ => .idle
  let writer stage := Function.update idle true stage
  let reader stage := Function.update (writer (.holding ([key], []))) false stage
  have hwrite : locks.discipline.acquire ([key], []) = [(i, .write)] := locks.rwLocks_single key
  have hread : locks.discipline.acquire ([], [key]) = [(i, .read)] := locks.rwLocks_single_read key
  have hheld : held i = ⟨∅, some true, ∅⟩ := Function.update_self _ _ _
  have hwriter stage : writer stage true = stage := Function.update_self _ _ _
  have hreader stage : reader stage false = stage := Function.update_self _ _ _
  have hbegun : Step locks.discipline true ⟨free, idle⟩ ⟨free, writer (.locking ([key], []) [(i, .write)])⟩ := by
    rw [← hwrite]
    exact .lockAll ([key], []) rfl
  have hannounced : Step locks.discipline true ⟨free, writer (.locking ([key], []) [(i, .write)])⟩
      ⟨held, writer (.draining ([key], []) i [])⟩ := by
    have hstep := Step.announce (d := locks.discipline) (c := true) (s := ⟨free, writer (.locking ([key], []) [(i, .write)])⟩)
      ([key], []) i [] (hwriter _) rfl
    rwa [System.put, Function.update_idem] at hstep
  have hdrained : Step locks.discipline true ⟨held, writer (.draining ([key], []) i [])⟩
      ⟨held, writer (.locking ([key], []) [])⟩ := by
    have hstep := Step.drained (d := locks.discipline) (c := true) (s := ⟨held, writer (.draining ([key], []) i [])⟩)
      ([key], []) i [] (hwriter _) (congrArg RWMutex.readers hheld)
    rwa [System.set, Function.update_idem] at hstep
  have hlocked : Step locks.discipline true ⟨held, writer (.locking ([key], []) [])⟩
      ⟨held, writer (.holding ([key], []))⟩ := by
    have hstep := Step.locked (d := locks.discipline) (c := true) (s := ⟨held, writer (.locking ([key], []) [])⟩)
      ([key], []) (hwriter _)
    rwa [System.set, Function.update_idem] at hstep
  have harrived : Step locks.discipline false ⟨held, writer (.holding ([key], []))⟩
      ⟨held, reader (.locking ([], [key]) [(i, .read)])⟩ := by
    rw [← hread]
    exact .lockAll ([], [key]) rfl
  have hparked : Step locks.discipline false ⟨held, reader (.locking ([], [key]) [(i, .read)])⟩
      (contended locks key) := by
    have hstep := Step.park (d := locks.discipline) (c := false) (s := ⟨held, reader (.locking ([], [key]) [(i, .read)])⟩)
      ([], [key]) i [] (hreader _) (by simp [hheld])
    dsimp only [System.put] at hstep
    rwa [hheld, Function.update_idem, Function.update_idem] at hstep
  exact (((((Relation.ReflTransGen.single ⟨true, hbegun⟩).tail ⟨true, hannounced⟩).tail ⟨true, hdrained⟩).tail
    ⟨true, hlocked⟩).tail ⟨false, harrived⟩).tail ⟨false, hparked⟩

theorem safe_contended : Safe ⟨1024, 10, rfl⟩ (contended ⟨1024, 10, rfl⟩ (bytes "k")) :=
  safe_of_reachable _ _ (reachable_contended _ _)

end Traitor.Lock
