import Mathlib.Data.List.Basic
import Mathlib.Logic.Function.Basic

namespace Traitor.Lib.Cells

/-- The cells of each owner are numbered, and the first of them are taken. -/
structure Memory (κ B : Type) where
  cell : κ × ℕ → B
  next : κ → ℕ

variable {κ B : Type}

namespace Memory

def read (m : Memory κ B) (part : List (κ × ℕ)) : List B := part.map m.cell

def Taken (m : Memory κ B) (part : List (κ × ℕ)) : Prop := ∀ a ∈ part, a.2 < m.next a.1

def fresh (m : Memory κ B) (k : κ) (n : ℕ) : List (κ × ℕ) := (List.range' (m.next k) n).map fun i => (k, i)

def extend (m : Memory κ B) (new : κ → List B) : Memory κ B where
  cell a := if m.next a.1 ≤ a.2 then ((new a.1)[a.2 - m.next a.1]?).getD (m.cell a) else m.cell a
  next k := m.next k + (new k).length

def write [DecidableEq κ] (m : Memory κ B) (part : List (κ × ℕ)) (l : List B) : Memory κ B :=
  { m with cell := (part.zip l).foldl (fun cell p => Function.update cell p.1 p.2) m.cell }

structure Extends (m m' : Memory κ B) : Prop where
  next_le : ∀ k, m.next k ≤ m'.next k
  cell_eq : ∀ a, a.2 < m.next a.1 → m'.cell a = m.cell a

variable {m m' : Memory κ B} {part part' : List (κ × ℕ)} {k : κ} {n : ℕ} {new : κ → List B}

theorem Extends.refl (m : Memory κ B) : Extends m m := ⟨fun _ => Nat.le_refl _, fun _ _ => rfl⟩

theorem extends_extend (m : Memory κ B) (new : κ → List B) : Extends m (m.extend new) where
  next_le _ := Nat.le_add_right _ _
  cell_eq _ ha := if_neg (Nat.not_le.mpr ha)

theorem Extends.taken (h : Extends m m') (hpart : m.Taken part) : m'.Taken part :=
  fun a ha => Nat.lt_of_lt_of_le (hpart a ha) (h.next_le a.1)

theorem Extends.read (h : Extends m m') (hpart : m.Taken part) : m'.read part = m.read part :=
  List.map_congr_left fun a ha => h.cell_eq a (hpart a ha)

theorem taken_append : m.Taken (part ++ part') ↔ m.Taken part ∧ m.Taken part' := List.forall_mem_append

theorem read_append : m.read (part ++ part') = m.read part ++ m.read part' := List.map_append

theorem taken_fresh (hn : n = (new k).length) : (m.extend new).Taken (m.fresh k n) := by
  intro a ha
  obtain ⟨i, hi, rfl⟩ := List.mem_map.mp ha
  rw [List.mem_range'_1, hn] at hi
  exact hi.2

theorem read_fresh (hn : n = (new k).length) : (m.extend new).read (m.fresh k n) = new k := by
  subst hn
  rw [Memory.read, fresh, List.map_map]
  apply List.ext_getElem
  · simp
  · intro i hi hi'
    simp [extend, hi']

end Memory

end Traitor.Lib.Cells
