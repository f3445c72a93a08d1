import Mathlib.Order.Bounds.Basic

namespace Traitor.Lib.Successor

variable {α : Type} [LinearOrder α] {points more : Set α} {h p q : α}

/-- The first point of a circle from `h` on, which is the least of all points when there is
none from `h` on. -/
def IsSuccessor (points : Set α) (h p : α) : Prop :=
  IsLeast {q | q ∈ points ∧ h ≤ q} p ∨ (∀ q ∈ points, q < h) ∧ IsLeast points p

theorem IsSuccessor.mem (hp : IsSuccessor points h p) : p ∈ points :=
  hp.elim (fun hleast => hleast.1.1) fun hwrap => hwrap.2.1

theorem isSuccessor_self (hh : h ∈ points) : IsSuccessor points h h :=
  .inl ⟨⟨hh, le_rfl⟩, fun _ hq => hq.2⟩

/-- With more points the successor stays as it is or becomes one of the new points. -/
theorem IsSuccessor.grow (hsub : points ⊆ more) (hp : IsSuccessor points h p)
    (hq : IsSuccessor more h q) (hmem : q ∈ points) : q = p := by
  rcases hq with ⟨⟨-, hhq⟩, hlow⟩ | ⟨hbelow, -, hlow⟩
  · rcases hp with hleast | ⟨hbelow, -⟩
    · exact le_antisymm (hlow ⟨hsub hleast.1.1, hleast.1.2⟩) (hleast.2 ⟨hmem, hhq⟩)
    · exact absurd hhq (not_le.mpr (hbelow q hmem))
  · rcases hp with ⟨⟨hpp, hhp⟩, -⟩ | ⟨-, hpp, hleast⟩
    · exact absurd hhp (not_le.mpr (hbelow p (hsub hpp)))
    · exact le_antisymm (hlow (hsub hpp)) (hleast hmem)

theorem IsSuccessor.unique (hp : IsSuccessor points h p) (hq : IsSuccessor points h q) : q = p :=
  hp.grow subset_rfl hq hq.mem

end Traitor.Lib.Successor
